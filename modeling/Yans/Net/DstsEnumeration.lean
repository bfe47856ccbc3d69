import Yans.Net.Dsts
import Yans.Net.IpNormal
import Mathlib.Data.List.Dedup

/-! What a cycle of `dsts_next` gives, said of the texts that were added. -/
namespace Yans.Net.Dsts

open Library Library.Memory Library.Intervals Library.Cycles Ip Ports

variable {δ : Type*} (getaddrinfo : Bytes → Option (List (Option IpAddr))) (qsort : Qsort)

structure Texts (add : Add δ) (given : List IpBlock) (listed : List PortRange) : Prop where
  addrs : ∃ s, add.addrs = some s ∧ findBlocks getaddrinfo s 0 none [] s = some given
  ports : ∃ s, add.ports = some s ∧ PortList s listed

/-- `part` is what a call adds to a cycle: each address of its blocks once and in
their order, with each of its ports once and in ascending order. Null pointers add
nothing. -/
inductive Enumerates (add : Add δ) : List (Destination δ) → Prop
  | nothing (h : add.addrs = none ∨ add.ports = none) : Enumerates add []
  | texts {s : Bytes} {blks : IpBlocks} {given : List IpBlock} {listed : List PortRange}
    {addrs : List IpAddr} {ports : List UInt16}
    (htexts : Texts getaddrinfo add given listed) (hs : add.addrs = some s)
    (hblks : ipBlocksInit getaddrinfo qsort s = some blks)
    (horder : addrs.Sublist (blks.entries.flatMap addresses)) (honce : addrs.Nodup)
    (haddrs : ∀ addr, addr ∈ addrs ↔ ∃ b ∈ given, b.Contains addr)
    (hascending : ports.Pairwise (· < ·))
    (hports : ∀ port : UInt16, port ∈ ports ↔ Covers PortRange.lo PortRange.hi listed port.toNat) :
    Enumerates add (addrs.flatMap fun addr => ports.map fun port => ⟨addr, port, add.data⟩)

/-- Every cycle of calls gives `run`, which enumerates what was added. -/
def EnumeratesAll (adds : List (Add δ)) (dsts : DstsCtx δ) : Prop :=
  ∃ parts, List.Forall₂ (Enumerates getaddrinfo qsort) adds parts ∧
    ∃ enough, ∀ fuel ≥ enough, ∀ n, ∃ final,
      Chain (dstsNext fuel) dsts (List.replicate n parts.flatten) final

/-- A call without ports, or one whose blocks, when they are sorted, have no block of
another family or zone between two that overlap, of which the first does not end at
the highest address unless the second starts at the lowest. -/
def Separable (add : Add δ) : Prop := ∀ given listed, Texts getaddrinfo add given listed →
  listed ≠ [] → Realms.Clear IpBlock.lo IpBlock.hi IpBlock.realm bottom top 0 (qsort.sort given)

/-- The destination that a call adds, if it adds one. -/
def made (add : Add δ) : Option (DstCtx δ) :=
  match add.addrs, add.ports with
  | some addrs, some ports => dstInit getaddrinfo qsort addrs ports add.data
  | _, _ => none

variable {getaddrinfo qsort}

theorem dstsAdd_spec (dsts : DstsCtx δ) (add : Add δ) :
    (dstsAdd getaddrinfo qsort dsts add).2 =
      { dsts with buf := dsts.buf ++ (made getaddrinfo qsort add).toList } := by
  have hsame : dsts = { dsts with buf := dsts.buf ++ [] } := by rw [List.append_nil]
  obtain ⟨addrs, ports, data⟩ := add
  cases addrs with
  | none => exact hsame
  | some addrs =>
    cases ports with
    | none => exact hsame
    | some ports =>
      simp only [dstsAdd, made]
      cases dstInit getaddrinfo qsort addrs ports data with
      | none => exact hsame
      | some dst => rfl

theorem dstsAdds_spec (adds : List (Add δ)) : ∀ dsts : DstsCtx δ,
    dstsAdds getaddrinfo qsort dsts adds =
      { dsts with buf := dsts.buf ++ adds.filterMap (made getaddrinfo qsort) } := by
  induction adds with
  | nil =>
    intro dsts
    rw [List.filterMap_nil, List.append_nil]
    rfl
  | cons add adds ih =>
    intro dsts
    have hfirst := ih (dstsAdd getaddrinfo qsort dsts add).2
    rw [dstsAdd_spec] at hfirst
    rw [List.filterMap_cons]
    refine Eq.trans ?_ (hfirst.trans ?_)
    · rw [dstsAdds, List.foldl_cons, dstsAdd_spec]
      rfl
    · rw [List.append_assoc]
      cases made getaddrinfo qsort add <;> rfl

variable (getaddrinfo qsort) in
/-- `dsts_add` returns 0. -/
def Accepted (add : Add δ) : Prop := ∀ dsts : DstsCtx δ, (dstsAdd getaddrinfo qsort dsts add).1 = 0

variable (getaddrinfo qsort) in
structure Makes (add : Add δ) (dst : DstCtx δ) (s : Bytes) (given : List IpBlock)
    (listed : List PortRange) : Prop where
  addrs_eq : add.addrs = some s
  texts : Texts getaddrinfo add given listed
  init : ipBlocksInit getaddrinfo qsort s = some dst.addrs
  entries_eq : dst.addrs.entries = stored qsort given
  ok : ∀ b ∈ given, b.Ok
  proper : Proper PortRange.lo PortRange.hi listed
  stores : Stores dst dst
  listed_eq : dst.ports.entries = listed
  data_eq : dst.data = add.data

theorem makes_of_accepted {add : Add δ} (h : Accepted getaddrinfo qsort add) :
    (made getaddrinfo qsort add = none ∧ (add.addrs = none ∨ add.ports = none)) ∨
      ∃ dst s given listed, made getaddrinfo qsort add = some dst ∧
        Makes getaddrinfo qsort add dst s given listed := by
  obtain ⟨addrs, ports, data⟩ := add
  cases addrs with
  | none => exact Or.inl ⟨rfl, Or.inl rfl⟩
  | some s =>
    cases ports with
    | none => exact Or.inl ⟨rfl, Or.inr rfl⟩
    | some t =>
      refine Or.inr ?_
      have haccepted := h (dstsInit data)
      simp only [dstsAdd, dstInit] at haccepted
      simp only [made, dstInit]
      cases hinit : ipBlocksInit getaddrinfo qsort s with
      | none =>
        rw [hinit] at haccepted
        have hrejected : (-1 : ℤ) = 0 := haccepted
        exact absurd hrejected (by decide)
      | some blks =>
        rw [hinit] at haccepted
        have hvalid := portRangesFromStr_valid t
        have hspec := portRangesFromStr_spec t
        generalize portRangesFromStr t = parsed at hvalid hspec haccepted ⊢
        obtain ⟨failure, rs⟩ := parsed
        cases failure with
        | some off =>
          have hrejected : (-1 : ℤ) = 0 := haccepted
          exact absurd hrejected (by decide)
        | none =>
          obtain ⟨given, hfind⟩ : ∃ given, findBlocks getaddrinfo s 0 none [] s = some given := by
            unfold ipBlocksInit at hinit
            cases hfind : findBlocks getaddrinfo s 0 none [] s with
            | none =>
              rw [hfind] at hinit
              exact absurd hinit (by simp)
            | some given => exact ⟨given, rfl⟩
          obtain ⟨blks', hinit', hentries, hnblocks, hcurr, haddr⟩ :=
            ipBlocksInit_of_findBlocks qsort hfind
          obtain rfl := Option.some.inj (hinit.symm.trans hinit')
          have hok := ok_of_findBlocks s hfind (by simp)
          obtain ⟨-, hstored, -, -⟩ := stored_spec qsort hok
          have hle : blks.nblocks ≤ blks.blocks.length := by
            have hlen := congrArg List.length hentries
            rw [← hnblocks, IpBlocks.entries, List.length_take] at hlen
            omega
          have htrack : Ip.OnTrack blks := by
            refine ⟨hle, ?_, ?_⟩
            · rw [hentries]
              exact hstored
            · intro _ addr hsome
              rw [haddr] at hsome
              exact absurd hsome (by simp)
          obtain ⟨-, hrange, hport, -, hlist⟩ := hspec
          have hlisted := (hlist rs.entries).mpr rfl
          exact ⟨_, s, given, rs.entries, rfl, rfl, ⟨⟨s, rfl, hfind⟩, ⟨t, rfl, hlisted⟩⟩, hinit,
            hentries, hok, portList_proper hlisted,
            ⟨rfl, htrack, ⟨hcurr, haddr⟩, rfl, hvalid.1, ⟨hrange, hport⟩, fun _ => Iff.rfl, hvalid.1⟩,
            rfl, rfl⟩

theorem nodup_part {addrs : List IpAddr} {ports : List UInt16} {data : δ} (haddrs : addrs.Nodup)
    (hports : ports.Pairwise (· < ·)) :
    (addrs.flatMap fun addr => ports.map fun port => Destination.mk addr port data).Nodup := by
  rw [List.nodup_flatMap]
  constructor
  · intro addr _
    apply List.Nodup.map
    · intro port port' heq
      exact (Destination.mk.inj heq).2.1
    · apply hports.imp
      intro port port' hlt heq
      rw [heq, UInt16.lt_iff_toNat_lt] at hlt
      exact Nat.lt_irrefl _ hlt
  · apply haddrs.imp
    intro addr addr' hne x hx hx'
    obtain ⟨port, -, rfl⟩ := List.mem_map.mp hx
    obtain ⟨port', -, heq⟩ := List.mem_map.mp hx'
    exact hne (Destination.mk.inj heq).1.symm

theorem nodup_of_part {addrs : List IpAddr} {ports : List UInt16} {data : δ} (hne : ports ≠ [])
    (h : (addrs.flatMap fun addr => ports.map fun port => Destination.mk addr port data).Nodup) :
    addrs.Nodup := by
  obtain ⟨port, hport⟩ := List.exists_mem_of_ne_nil _ hne
  rw [List.nodup_flatMap] at h
  apply h.2.imp
  intro addr addr' hdisjoint heq
  rw [heq] at hdisjoint
  exact hdisjoint (List.mem_map_of_mem hport) (List.mem_map_of_mem hport)

section Makes

variable {add : Add δ} {dst : DstCtx δ} {s : Bytes} {given : List IpBlock} {listed : List PortRange}
  (h : Makes getaddrinfo qsort add dst s given listed)

include h

theorem Makes.mem_addrsOf (addr : IpAddr) : addr ∈ addrsOf dst ↔ ∃ b ∈ given, b.Contains addr := by
  obtain ⟨-, hstored, hcontains, -⟩ := stored_spec qsort h.ok
  rw [addrsOf, h.entries_eq, mem_flatMap_addresses hstored, hcontains]

theorem Makes.nodup_addrsOf : (addrsOf dst).Nodup ↔
    Realms.Clear IpBlock.lo IpBlock.hi IpBlock.realm bottom top 0 (qsort.sort given) := by
  obtain ⟨hsorted, hstored, -, hapart⟩ := stored_spec qsort h.ok
  rw [addrsOf, h.entries_eq, nodup_iff_apart hstored hsorted, hapart 0 (Nat.zero_le _)]

theorem Makes.mem_portsOf (port : UInt16) :
    port ∈ portsOf dst ↔ Covers PortRange.lo PortRange.hi listed port.toNat := by
  obtain ⟨-, -, hsame⟩ := undirtify_valid h.stores.ports_valid
  rw [portsOf, mem_ports, hsame.covers, h.listed_eq]

theorem Makes.pairwise_portsOf : (portsOf dst).Pairwise (· < ·) := by
  obtain ⟨hused, hclean, -⟩ := undirtify_valid h.stores.ports_valid
  exact pairwise_ports (hused.gapped hclean)

theorem Makes.portsOf_ne_nil : portsOf dst ≠ [] ↔ listed ≠ [] := by
  constructor
  · intro hne hnil
    obtain ⟨port, hport⟩ := List.exists_mem_of_ne_nil _ hne
    rw [h.mem_portsOf, hnil] at hport
    exact covers_nil _ hport
  · intro hne hnil
    obtain ⟨r, hr⟩ := List.exists_mem_of_ne_nil _ hne
    have hport := (h.mem_portsOf r.start).mpr ⟨r, hr, Nat.le_refl _, h.proper r hr⟩
    rw [hnil] at hport
    exact absurd hport (List.not_mem_nil)

theorem Makes.unique {given' : List IpBlock} {listed' : List PortRange}
    (htexts : Texts getaddrinfo add given' listed') : given' = given ∧ listed' = listed := by
  obtain ⟨⟨s₁, hs₁, hfind₁⟩, ⟨t₁, ht₁, hlist₁⟩⟩ := htexts
  obtain ⟨⟨s₂, hs₂, hfind₂⟩, ⟨t₂, ht₂, hlist₂⟩⟩ := h.texts
  obtain rfl := Option.some.inj (hs₁.symm.trans hs₂)
  obtain rfl := Option.some.inj (ht₁.symm.trans ht₂)
  exact ⟨Option.some.inj (hfind₁.symm.trans hfind₂), portList_unique hlist₁ hlist₂⟩

theorem Makes.enumerates (hclear : Separable getaddrinfo qsort add) :
    Enumerates getaddrinfo qsort add (enumeration dst) := by
  have hpart : (addrsOf dst).dedup.flatMap (fun addr => (portsOf dst).map fun port =>
      ⟨addr, port, add.data⟩) = enumeration dst := by
    rw [enumeration]
    by_cases hne : portsOf dst = []
    · have hnone : withPorts dst = fun _ => [] := by
        funext addr
        rw [withPorts, hne, List.map_nil]
      have hnil : ∀ addrs : List IpAddr, addrs.flatMap (fun _ => ([] : List (Destination δ))) = [] :=
        fun addrs => List.flatMap_eq_nil_iff.mpr fun _ _ => rfl
      rw [hnone, hne]
      exact (hnil _).trans (hnil _).symm
    · have hnodup := h.nodup_addrsOf.mpr (hclear _ _ h.texts (h.portsOf_ne_nil.mp hne))
      rw [hnodup.dedup, ← h.data_eq]
      rfl
  rw [← hpart]
  refine .texts h.texts h.addrs_eq h.init (List.dedup_sublist _) (List.nodup_dedup _) ?_
    h.pairwise_portsOf h.mem_portsOf
  intro addr
  rw [List.mem_dedup, h.mem_addrsOf]

theorem Makes.of_enumerates {part : List (Destination δ)}
    (hpart : Enumerates getaddrinfo qsort add part) :
    part.length ≤ (enumeration dst).length ∧
      (part = enumeration dst → Separable getaddrinfo qsort add) := by
  cases hpart with
  | nothing hnull =>
    obtain ⟨⟨s', hs', -⟩, ⟨t', ht', -⟩⟩ := h.texts
    obtain hnull | hnull := hnull
    · exact absurd (hs'.symm.trans hnull) (by simp)
    · exact absurd (ht'.symm.trans hnull) (by simp)
  | @texts s' blks given' listed' addrs ports htexts hs hblks horder honce haddrs hascending hports =>
    obtain ⟨rfl, rfl⟩ := h.unique htexts
    have hnodup := @nodup_part δ addrs ports add.data honce hascending
    constructor
    · apply (List.subperm_of_subset hnodup _).length_le
      intro x hx
      obtain ⟨addr, haddr, hx⟩ := List.mem_flatMap.mp hx
      obtain ⟨port, hport, rfl⟩ := List.mem_map.mp hx
      rw [haddrs, ← h.mem_addrsOf] at haddr
      rw [hports, ← h.mem_portsOf] at hport
      rw [← h.data_eq]
      exact List.mem_flatMap.mpr ⟨addr, haddr, List.mem_map_of_mem hport⟩
    · intro heq given'' listed'' htexts' hne
      obtain ⟨rfl, rfl⟩ := h.unique htexts'
      rw [heq] at hnodup
      exact h.nodup_addrsOf.mp (nodup_of_part (h.portsOf_ne_nil.mpr hne) hnodup)

end Makes

variable (getaddrinfo qsort) in
def partOf (add : Add δ) : List (Destination δ) :=
  (made getaddrinfo qsort add).toList.flatMap enumeration

theorem flatten_partOf (adds : List (Add δ)) :
    (adds.map (partOf getaddrinfo qsort)).flatten =
      (adds.filterMap (made getaddrinfo qsort)).flatMap enumeration := by
  induction adds with
  | nil => rfl
  | cons add adds ih =>
    rw [List.map_cons, List.flatten_cons, ih, partOf, List.filterMap_cons]
    cases made getaddrinfo qsort add with
    | none => rfl
    | some dst => rw [Option.toList_some, List.flatMap_singleton, List.flatMap_cons]

theorem separable_of_null {add : Add δ} (h : add.addrs = none ∨ add.ports = none) :
    Separable getaddrinfo qsort add := by
  rintro given listed ⟨⟨s, hs, -⟩, ⟨t, ht, -⟩⟩ _
  obtain h | h := h
  · exact absurd (hs.symm.trans h) (by simp)
  · exact absurd (ht.symm.trans h) (by simp)

theorem partOf_spec {add : Add δ} (h : Accepted getaddrinfo qsort add) :
    (Enumerates getaddrinfo qsort add (partOf getaddrinfo qsort add) ↔
      Separable getaddrinfo qsort add) ∧
      ∀ part, Enumerates getaddrinfo qsort add part →
        part.length ≤ (partOf getaddrinfo qsort add).length := by
  unfold partOf
  obtain ⟨hnone, hnull⟩ | ⟨dst, s, given, listed, hsome, hmakes⟩ := makes_of_accepted h
  · rw [hnone]
    refine ⟨iff_of_true (.nothing hnull) (separable_of_null hnull), fun part hpart => ?_⟩
    cases hpart with
    | nothing => exact Nat.zero_le _
    | texts htexts =>
      obtain ⟨⟨s, hs, -⟩, ⟨t, ht, -⟩⟩ := htexts
      obtain hnull | hnull := hnull
      · exact absurd (hs.symm.trans hnull) (by simp)
      · exact absurd (ht.symm.trans hnull) (by simp)
  · rw [hsome, Option.toList_some, List.flatMap_singleton]
    exact ⟨⟨fun hpart => (hmakes.of_enumerates hpart).2 rfl, hmakes.enumerates⟩,
      fun part hpart => (hmakes.of_enumerates hpart).1⟩

theorem eq_of_flatten_eq {α : Type*} {left right : List (List α)}
    (h : List.Forall₂ (fun a b => a.length ≤ b.length) left right)
    (heq : left.flatten = right.flatten) : left = right := by
  induction h with
  | nil => rfl
  | @cons a b left right hle hrest ih =>
    rw [List.flatten_cons, List.flatten_cons] at heq
    have hrest_le : left.flatten.length ≤ right.flatten.length := by
      clear ih heq
      induction hrest with
      | nil => exact Nat.le_refl _
      | cons hle _ ih =>
        rw [List.flatten_cons, List.flatten_cons, List.length_append, List.length_append]
        exact Nat.add_le_add hle ih
    have hlen := congrArg List.length heq
    rw [List.length_append, List.length_append] at hlen
    obtain ⟨rfl, htail⟩ := List.append_inj heq (by omega)
    rw [ih htail]

theorem rested_of_accepted (null : δ) {adds : List (Add δ)}
    (haccepted : ∀ add ∈ adds, Accepted getaddrinfo qsort add) :
    Rested (adds.filterMap (made getaddrinfo qsort))
      (dstsAdds getaddrinfo qsort (dstsInit null) adds) := by
  rw [dstsAdds_spec]
  refine ⟨rfl, ?_⟩
  change List.Forall₂ Stores _ ([] ++ adds.filterMap (made getaddrinfo qsort))
  rw [List.nil_append, List.forall₂_same]
  intro dst hdst
  obtain ⟨add, hadd, hmade⟩ := List.mem_filterMap.mp hdst
  obtain ⟨hnone, -⟩ | ⟨dst', s, given, listed, hsome, hmakes⟩ :=
    makes_of_accepted (haccepted add hadd)
  · exact absurd (hnone.symm.trans hmade) (by simp)
  · obtain rfl := Option.some.inj (hsome.symm.trans hmade)
    exact hmakes.stores

section Accepted

variable {null : δ} {adds : List (Add δ)}
  (haccepted : ∀ add ∈ adds, Accepted getaddrinfo qsort add)

include haccepted

theorem chain_of_accepted {fuel : ℕ}
    (hfuel : fuel ≥ total (adds.filterMap (made getaddrinfo qsort))) (n : ℕ) :
    ∃ final, Chain (dstsNext fuel) (dstsAdds getaddrinfo qsort (dstsInit null) adds)
      (List.replicate n (adds.map (partOf getaddrinfo qsort)).flatten) final := by
  rw [flatten_partOf]
  exact chain_rested (rested_of_accepted null haccepted) hfuel n

theorem enumeratesAll_of_separable (h : ∀ add ∈ adds, Separable getaddrinfo qsort add) :
    EnumeratesAll getaddrinfo qsort adds (dstsAdds getaddrinfo qsort (dstsInit null) adds) := by
  refine ⟨adds.map (partOf getaddrinfo qsort), ?_, _, fun fuel hfuel n =>
    chain_of_accepted haccepted hfuel n⟩
  rw [List.forall₂_map_right_iff, List.forall₂_same]
  exact fun add hadd => (partOf_spec (haccepted add hadd)).1.mpr (h add hadd)

theorem separable_of_enumeratesAll
    (h : EnumeratesAll getaddrinfo qsort adds (dstsAdds getaddrinfo qsort (dstsInit null) adds)) :
    ∀ add ∈ adds, Separable getaddrinfo qsort add := by
  obtain ⟨parts, hparts, enough, hruns⟩ := h
  obtain ⟨final, hrun⟩ := hruns (max enough (total (adds.filterMap (made getaddrinfo qsort))))
    (le_max_left _ _) 1
  obtain ⟨final', hrun'⟩ := @chain_of_accepted _ _ _ null _ haccepted _ (le_max_right enough _) 1
  cases hrun with
  | cons hcycle _ =>
    cases hrun' with
    | cons hcycle' _ =>
      have hsame : parts = adds.map (partOf getaddrinfo qsort) := by
        apply eq_of_flatten_eq _ (cycle_unique hcycle hcycle')
        rw [List.forall₂_map_right_iff]
        apply List.Forall₂.flip
        apply ((List.forall₂_and_left _ _).mpr ⟨haccepted, hparts⟩).imp
        exact fun add part hadd => (partOf_spec hadd.1).2 part hadd.2
      rw [hsame, List.forall₂_map_right_iff, List.forall₂_same] at hparts
      exact fun add hadd => (partOf_spec (haccepted add hadd)).1.mp (hparts add hadd)

end Accepted

/-- The calls of `dsts_next` enumerate what was added, in every cycle, exactly when
the blocks of each call that has ports are kept apart. -/
theorem dsts_next_enumerates_iff (null : δ) {adds : List (Add δ)}
    (haccepted : ∀ add ∈ adds, Accepted getaddrinfo qsort add) :
    EnumeratesAll getaddrinfo qsort adds (dstsAdds getaddrinfo qsort (dstsInit null) adds) ↔
      ∀ add ∈ adds, Separable getaddrinfo qsort add :=
  ⟨separable_of_enumeratesAll haccepted, enumeratesAll_of_separable haccepted⟩

theorem accepted_of_texts {add : Add δ} {given : List IpBlock} {listed : List PortRange}
    (h : Texts getaddrinfo add given listed) : Accepted getaddrinfo qsort add := by
  obtain ⟨⟨s, hs, hfind⟩, ⟨t, ht, hlist⟩⟩ := h
  obtain ⟨blks, hinit, -⟩ := ipBlocksInit_of_findBlocks qsort hfind
  have hspec := portRangesFromStr_spec t
  intro dsts
  simp only [dstsAdd, hs, ht, dstInit, hinit]
  generalize portRangesFromStr t = parsed at hspec ⊢
  obtain ⟨failure, rs⟩ := parsed
  cases failure with
  | some off => exact absurd hlist (hspec.2 listed)
  | none => rfl

theorem portList_eighty : PortList [56, 48] [between 80 80] :=
  PortList.last (Element.port ⟨List.cons_ne_nil _ _, by decide, by decide, by decide⟩)

/-- The text "10.0.0.2,10.0.0.1" with port 80, and a call with a null pointer. -/
theorem dsts_next_enumerates_two :
    EnumeratesAll (lookup twoHosts) stableQsort
      [⟨some (hostTwo ++ 44 :: hostOne), some [56, 48], 1⟩, ⟨none, some [56, 48], 2⟩]
      (dstsAdds (lookup twoHosts) stableQsort (dstsInit 0)
        [⟨some (hostTwo ++ 44 :: hostOne), some [56, 48], 1⟩, ⟨none, some [56, 48], 2⟩]) := by
  have htwo := BlockText.addr (@lookup_text twoHosts hostTwo (.v4 0x0a000002) (by decide)
    (by decide) rfl)
  have hone := BlockText.addr (@lookup_text twoHosts hostOne (.v4 0x0a000001) (by decide)
    (by decide) rfl)
  have hlist := BlockList.block htwo (by decide) (c := 44) rfl (.last hone (by decide))
  have hfind := findBlocks_of_list hlist [] []
  refine (dsts_next_enumerates_iff 0 ?_).mpr ?_
  · simp only [List.forall_mem_cons, List.not_mem_nil, false_implies, implies_true, and_true]
    exact ⟨accepted_of_texts ⟨⟨_, rfl, hfind⟩, ⟨_, rfl, portList_eighty⟩⟩, fun _ => rfl⟩
  · simp only [List.forall_mem_cons, List.not_mem_nil, false_implies, implies_true, and_true]
    refine ⟨?_, separable_of_null (Or.inl rfl)⟩
    rintro given listed ⟨⟨s, hs, hgiven⟩, -⟩ _
    cases hs
    rw [List.nil_append] at hfind
    obtain rfl := Option.some.inj (hgiven.symm.trans hfind)
    have hlow : ∀ b ∈ stableQsort.sort [⟨.v4 0x0a000002, .v4 0x0a000002⟩,
        ⟨.v4 0x0a000001, .v4 0x0a000001⟩], b.realm = none ∧ b.hi ≠ top none := by
      intro b hb
      rw [(stableQsort.perm _).mem_iff, List.mem_cons, List.mem_singleton] at hb
      obtain rfl | rfl := hb
      · exact ⟨rfl, by decide⟩
      · exact ⟨rfl, by decide⟩
    intro before a between b after hsplit _ _
    rw [List.nil_append] at hsplit
    have ha := hlow a (by rw [hsplit]; simp)
    refine ⟨fun e he => ?_, fun hhi => ?_⟩
    · rw [ha.1]
      exact (hlow e (by rw [hsplit]; simp [he])).1
    · rw [ha.1] at hhi
      exact absurd hhi ha.2

/-- The text "255.255.255.255,255.255.255.255" with port 80: the destination is
given twice. -/
theorem highest_destination_twice :
    ¬ EnumeratesAll (lookup topHost) stableQsort [⟨some (hostTop ++ 44 :: hostTop), some [56, 48], 1⟩]
        (dstsAdds (lookup topHost) stableQsort (dstsInit 0)
          [⟨some (hostTop ++ 44 :: hostTop), some [56, 48], 1⟩]) := by
  have htext := BlockText.addr (@lookup_text topHost hostTop (.v4 0xffffffff) (by decide)
    (by decide) rfl)
  have hlist := BlockList.block htext (by decide) (c := 44) rfl (.last htext (by decide))
  have htexts : Texts (lookup topHost) (⟨some (hostTop ++ 44 :: hostTop), some [56, 48], 1⟩ : Add ℕ) _ _ :=
    ⟨⟨_, rfl, findBlocks_of_list hlist [] []⟩, ⟨_, rfl, portList_eighty⟩⟩
  intro h
  have hclear := separable_of_enumeratesAll
    (List.forall_mem_singleton.mpr (accepted_of_texts htexts)) h _ (List.mem_singleton.mpr rfl) _ _
    htexts (List.cons_ne_nil _ _)
  have hboth := hclear [] ⟨.v4 0xffffffff, .v4 0xffffffff⟩ [] ⟨.v4 0xffffffff, .v4 0xffffffff⟩ []
    (by decide) rfl (by decide)
  exact absurd (hboth.2 (by decide)) (by decide)

end Yans.Net.Dsts
