import Yans.Library.Cycles
import Yans.Net.IpIteration
import Yans.Net.PortIteration
import Mathlib.Data.List.Forall2

/-! `lib/net/dsts.c`: destinations, each with addresses, ports and a pointer of the
caller, and the iteration over them. The current destination is a copy of the
stored one, but its array of port ranges is the same memory. -/
namespace Yans.Net.Dsts

open Library Library.Memory Library.Cycles Ip Ports

/-- `δ` is the type of the pointers of the caller. -/
structure DstCtx (δ : Type*) where
  addrs : IpBlocks
  ports : PortRanges
  data : δ

/-- `buf` is an array of destinations and `dstsNext` an index into it. `finited` is
the flag `DSTS_FINITED`; `curraddr` is `none` for `AF_UNSPEC`. -/
structure DstsCtx (δ : Type*) where
  finited : Bool
  buf : List (DstCtx δ)
  dstsNext : ℕ
  currdst : DstCtx δ
  curraddr : Option IpAddr

/-- What `dsts_next` writes to its arguments. -/
structure Destination (δ : Type*) where
  addr : IpAddr
  port : UInt16
  data : δ
deriving DecidableEq

/-- The arguments of `dsts_add`; `none` is a null pointer. -/
structure Add (δ : Type*) where
  addrs : Option Bytes
  ports : Option Bytes
  data : δ

section

variable {δ : Type*}

def dstsInit (null : δ) : DstsCtx δ := ⟨false, [], 0, ⟨.empty, .zero, null⟩, none⟩

section

variable (getaddrinfo : Bytes → Option (List (Option IpAddr))) (qsort : Qsort)

def dstInit (addrs ports : Bytes) (dstdata : δ) : Option (DstCtx δ) :=
  match ipBlocksInit getaddrinfo qsort addrs with
  | none => none
  | some blks =>
    match portRangesFromStr ports with
    | (some _, _) => none
    | (none, rs) => some ⟨blks, rs, dstdata⟩

def dstsAdd (dsts : DstsCtx δ) (add : Add δ) : ℤ × DstsCtx δ :=
  match add.addrs, add.ports with
  | some addrs, some ports =>
    match dstInit getaddrinfo qsort addrs ports add.data with
    | none => (-1, dsts)
    | some dst => (0, { dsts with buf := dsts.buf ++ [dst] })
  | _, _ => (0, dsts)

/-- One call of `dsts_add` after the other. -/
def dstsAdds (dsts : DstsCtx δ) (adds : List (Add δ)) : DstsCtx δ :=
  adds.foldl (fun dsts add => (dstsAdd getaddrinfo qsort dsts add).2) dsts

end

/-- The loop of `dsts_next_dst`, with a bound on its rounds. -/
def dstsNextDstLoop : ℕ → DstsCtx δ → Bool × DstsCtx δ
  | 0, dsts => (false, dsts)
  | rounds + 1, dsts =>
    match dsts.buf[dsts.dstsNext]? with
    | none => (false, dsts)
    | some dst =>
      match ipBlocksNext dst.addrs with
      | (none, addrs) =>
        dstsNextDstLoop rounds { dsts with
          currdst := { dst with addrs := addrs }, dstsNext := dsts.dstsNext + 1 }
      | (some addr, addrs) =>
        (true, { dsts with
          currdst := { dst with addrs := addrs }, dstsNext := dsts.dstsNext + 1,
          curraddr := some addr })

def dstsNextDst (dsts : DstsCtx δ) : Bool × DstsCtx δ := dstsNextDstLoop dsts.buf.length dsts

def DstCtx.withRanges (dst : DstCtx δ) (ranges : List PortRange) : DstCtx δ :=
  { dst with ports := { dst.ports with ranges := ranges } }

/-- After `port_ranges_next` on the copy: the stored destination, which is the one
before `dstsNext`, has the same array. -/
def keepPorts (dsts : DstsCtx δ) (ports : PortRanges) : DstsCtx δ :=
  { dsts with
    currdst := { dsts.currdst with ports := ports }
    buf := dsts.buf.modify (dsts.dstsNext - 1) fun dst => dst.withRanges ports.ranges }

/-- From the label `again` on; `none` if it is gone back to more often than the
fuel allows. -/
def dstsNextAgain : ℕ → DstsCtx δ → Option (Option (Destination δ) × DstsCtx δ)
  | 0, _ => none
  | fuel + 1, dsts =>
    match portRangesNext dsts.currdst.ports with
    | (none, ports) =>
      let dsts := keepPorts dsts ports
      match ipBlocksNext dsts.currdst.addrs with
      | (none, addrs) =>
        match dstsNextDst { dsts with currdst := { dsts.currdst with addrs := addrs } } with
        | (false, dsts) => some (none, { dsts with finited := false })
        | (true, dsts) => dstsNextAgain fuel dsts
      | (some addr, addrs) =>
        dstsNextAgain fuel { dsts with
          currdst := { dsts.currdst with addrs := addrs }, curraddr := some addr }
    | (some currport, ports) =>
      let dsts := keepPorts dsts ports
      match dsts.curraddr with
      | none => dstsNextAgain fuel dsts
      | some addr => some (some ⟨addr, currport, dsts.currdst.data⟩, dsts)

def dstsNext (fuel : ℕ) (dsts : DstsCtx δ) : Option (Option (Destination δ) × DstsCtx δ) :=
  if dsts.buf = [] then some (none, dsts)
  else if dsts.finited = true then dstsNextAgain fuel dsts
  else
    match dstsNextDst { dsts with dstsNext := 0 } with
    | (false, dsts) => some (none, dsts)
    | (true, dsts) => dstsNextAgain fuel { dsts with finited := true }

end

end Yans.Net.Dsts

/-! A whole cycle of `dsts_next`. The first cycle sorts and merges the arrays of
ports in place while the stored destinations keep their counts; what the entries
cover stays the same, so that every cycle gives the same. -/
namespace Yans.Net.Dsts

open Library Library.Intervals Library.Cycles Ip Ports

variable {δ : Type*}

/-- The ports of a destination in ascending order. -/
def portsOf (dst : DstCtx δ) : List UInt16 := ports (undirtify dst.ports)

def withPorts (dst : DstCtx δ) (addr : IpAddr) : List (Destination δ) :=
  (portsOf dst).map fun port => ⟨addr, port, dst.data⟩

/-- The addresses of a destination, one block after the other. -/
def addrsOf (dst : DstCtx δ) : List IpAddr := dst.addrs.entries.flatMap addresses

def enumeration (dst : DstCtx δ) : List (Destination δ) := (addrsOf dst).flatMap (withPorts dst)

structure Stores (added dst : DstCtx δ) : Prop where
  addrs_eq : dst.addrs = added.addrs
  addrs_onTrack : Ip.OnTrack dst.addrs
  addrs_atStart : Ip.AtStart dst.addrs
  data_eq : dst.data = added.data
  ports_valid : Valid dst.ports
  ports_atStart : Ports.AtStart dst.ports
  covers : ∀ n, Covers PortRange.lo PortRange.hi dst.ports.entries n ↔
    Covers PortRange.lo PortRange.hi added.ports.entries n
  added_valid : Valid added.ports

section Stored

variable {added dst : DstCtx δ}

theorem Stores.enumeration_eq (h : Stores added dst) :
    addrsOf dst = addrsOf added ∧ portsOf dst = portsOf added ∧ withPorts dst = withPorts added := by
  obtain ⟨hused, hclean, hsame⟩ := undirtify_valid h.ports_valid
  obtain ⟨hused', hclean', hsame'⟩ := undirtify_valid h.added_valid
  have hports : portsOf dst = portsOf added := by
    unfold portsOf ports
    rw [elements_eq_of_covers (hused.gapped hclean) (hused'.gapped hclean')]
    intro n
    rw [hsame.covers, hsame'.covers, h.covers]
  refine ⟨by rw [addrsOf, addrsOf, h.addrs_eq], hports, ?_⟩
  funext addr
  rw [withPorts, withPorts, hports, h.data_eq]

theorem Stores.withRanges (h : Stores added dst) :
    Stores added (dst.withRanges (undirtify dst.ports).ranges) := by
  by_cases hdirty : dst.ports.dirty = true
  · obtain ⟨merged, tail, hrs, hlen, hne, htail, hgapped, hproper, hcovers⟩ :=
      undirtifyAlways_spec h.ports_valid.nranges_le (h.ports_valid.nranges_ne hdirty)
        h.ports_valid.proper
    have hranges : (undirtify dst.ports).ranges = merged ++ tail ++ dst.ports.ranges.drop dst.ports.nranges := by
      rw [undirtify, if_pos hdirty, hrs]
    have hentries : (dst.withRanges (undirtify dst.ports).ranges).ports.entries = merged ++ tail := by
      rw [hranges]
      exact List.take_left' hlen
    have hsame : ∀ n, Covers PortRange.lo PortRange.hi (merged ++ tail) n ↔
        Covers PortRange.lo PortRange.hi dst.ports.entries n := by
      intro n
      rw [covers_append, hcovers, or_iff_left_iff_imp]
      rintro ⟨e, he, hin⟩
      exact ⟨e, htail e he, hin⟩
    refine ⟨h.addrs_eq, h.addrs_onTrack, h.addrs_atStart, h.data_eq, ⟨?_, ?_, ?_, ?_⟩,
      h.ports_atStart, ?_, h.added_valid⟩
    · rw [hranges]
      simp only [DstCtx.withRanges, PortRanges.cap, List.length_append] at hlen ⊢
      omega
    · rw [hentries]
      intro e he
      obtain he | he := List.mem_append.mp he
      · exact hproper e he
      · exact h.ports_valid.proper e (htail e he)
    · intro hclean
      rw [DstCtx.withRanges, hdirty] at hclean
      exact absurd hclean (by simp)
    · exact h.ports_valid.nranges_ne
    · intro n
      rw [hentries, hsame, h.covers]
  · rw [Bool.not_eq_true] at hdirty
    rw [undirtify_of_clean hdirty]
    exact h

end Stored

def total (dests : List (DstCtx δ)) : ℕ := (dests.flatMap addrsOf).length

theorem total_cons (dst : DstCtx δ) (dests : List (DstCtx δ)) :
    total (dst :: dests) = (addrsOf dst).length + total dests := by
  rw [total, List.flatMap_cons, List.length_append]
  rfl

/-- Where a cycle over the added destinations is. -/
structure Place (δ : Type*) where
  before : List (DstCtx δ)
  dst : DstCtx δ
  after : List (DstCtx δ)
  addr : IpAddr

def pending (place : Place δ) (dsts : DstsCtx δ) : List (Destination δ) :=
  (portsLeft (undirtify dsts.currdst.ports)).map (⟨place.addr, ·, place.dst.data⟩) ++
    ((addrsLeft dsts.currdst.addrs).flatMap (withPorts place.dst) ++
      place.after.flatMap enumeration)

/-- A bound on how often no port is left of an address. -/
def work (place : Place δ) (dsts : DstsCtx δ) : ℕ :=
  (addrsLeft dsts.currdst.addrs).length + total place.after

structure UnderWay (place : Place δ) (dsts : DstsCtx δ) : Prop where
  finited : dsts.finited = true
  stored : ∃ before dst after, dsts.buf = before ++ dst :: after ∧
    dsts.dstsNext = before.length + 1 ∧ List.Forall₂ Stores place.before before ∧
    Stores place.dst dst ∧ Stores place.dst (dst.withRanges (undirtify dsts.currdst.ports).ranges) ∧
    List.Forall₂ Stores place.after after
  curraddr_eq : dsts.curraddr = some place.addr
  data_eq : dsts.currdst.data = place.dst.data
  portsOf_eq : portsOf dsts.currdst = portsOf place.dst
  addrs_onTrack : Ip.OnTrack dsts.currdst.addrs
  ports_valid : Valid dsts.currdst.ports
  ports_onTrack : Ports.OnTrack (undirtify dsts.currdst.ports)

structure Rested (added : List (DstCtx δ)) (dsts : DstsCtx δ) : Prop where
  finited : dsts.finited = false
  stored : List.Forall₂ Stores added dsts.buf

def Place.added (place : Place δ) : List (DstCtx δ) := place.before ++ place.dst :: place.after

/-- The search for a destination with an address: there is none and nothing is to
come, or the next cycle or the next part of a cycle is under way. -/
theorem dstsNextDstLoop_spec (rounds : ℕ) : ∀ {dsts : DstsCtx δ} {addedBefore addedAfter before after},
    dsts.buf = before ++ after → dsts.dstsNext = before.length → after.length ≤ rounds →
    List.Forall₂ Stores addedBefore before → List.Forall₂ Stores addedAfter after →
    (addedAfter.flatMap enumeration = [] ∧ ∃ dsts', dstsNextDstLoop rounds dsts = (false, dsts') ∧
      dsts'.buf = dsts.buf ∧ dsts'.finited = dsts.finited) ∨
    (∃ place dsts', dstsNextDstLoop rounds dsts = (true, dsts') ∧
      dsts'.finited = dsts.finited ∧ UnderWay place { dsts' with finited := true } ∧
      place.added = addedBefore ++ addedAfter ∧ pending place dsts' = addedAfter.flatMap enumeration ∧
      work place dsts' < total addedAfter) := by
  induction rounds with
  | zero =>
    intro dsts addedBefore addedAfter before after _ _ hlen _ hafter
    obtain rfl := List.eq_nil_of_length_eq_zero (Nat.le_zero.mp hlen)
    cases hafter
    exact Or.inl ⟨rfl, dsts, rfl, rfl, rfl⟩
  | succ rounds ih =>
    intro dsts addedBefore addedAfter before after hbuf hnext hlen hbefore hafter
    unfold dstsNextDstLoop
    cases hafter with
    | nil =>
      rw [hbuf, hnext, List.append_nil, List.getElem?_eq_none (Nat.le_refl _)]
      refine Or.inl ⟨rfl, dsts, rfl, ?_, rfl⟩
      rw [hbuf, List.append_nil]
    | @cons addedDst dst addedAfter after hdst hafter =>
      have hget : dsts.buf[dsts.dstsNext]? = some dst := by
        rw [hbuf, hnext, List.getElem?_append_right (Nat.le_refl _), Nat.sub_self]
        rfl
      obtain ⟨haddrs, hports, -⟩ := hdst.enumeration_eq
      have hall : addrsLeft dst.addrs = addrsOf addedDst := by
        rw [addrsLeft_atStart hdst.addrs_onTrack.nblocks_le hdst.addrs_atStart]
        exact haddrs
      have hleft := ipBlocksNext_left hdst.addrs_onTrack
      rw [hget]
      dsimp only
      generalize ipBlocksNext dst.addrs = result at hleft ⊢
      obtain ⟨out, addrs⟩ := result
      cases out with
      | none =>
        have hnil : addrsOf addedDst = [] := hall.symm.trans hleft.1
        have henum : enumeration addedDst = [] := by rw [enumeration, hnil, List.flatMap_nil]
        have hstep := @ih { dsts with
          currdst := { dst with addrs := addrs }, dstsNext := dsts.dstsNext + 1 }
          (addedBefore ++ [addedDst]) addedAfter (before ++ [dst]) after
          (by rw [hbuf, List.append_assoc]; rfl) (by rw [hnext, List.length_append]; rfl)
          (Nat.le_of_succ_le_succ hlen)
          (List.rel_append hbefore (List.Forall₂.cons hdst List.Forall₂.nil)) hafter
        rw [List.flatMap_cons, henum, List.nil_append, total_cons, hnil, List.length_nil,
          Nat.zero_add, List.append_cons]
        exact hstep
      | some addr =>
        obtain ⟨hcons, htrack, -, -⟩ := hleft
        have hclean := (undirtify_valid hdst.ports_valid).1
        have hstart : Ports.AtStart (undirtify dst.ports) := by
          obtain ⟨hrange, hport⟩ := undirtify_curr dst.ports
          exact ⟨hrange.trans hdst.ports_atStart.1, hport.trans hdst.ports_atStart.2⟩
        rw [hall] at hcons
        refine Or.inr ⟨⟨addedBefore, addedDst, addedAfter, addr⟩, _, rfl, rfl,
          ⟨rfl, ⟨before, dst, after, hbuf, ?_, hbefore, hdst, hdst.withRanges, hafter⟩, rfl,
            hdst.data_eq, hports, htrack, hdst.ports_valid, onTrack_atStart hclean hstart⟩, rfl, ?_, ?_⟩
        · rw [← hnext]
        · have hleft : portsLeft (undirtify dst.ports) = portsOf addedDst :=
            (portsLeft_atStart hclean.nranges_le hstart).trans hports
          rw [pending, List.flatMap_cons, enumeration, hcons, List.flatMap_cons, List.append_assoc]
          dsimp only
          rw [hleft]
          rfl
        · rw [work, total_cons, hcons, List.length_cons]
          exact Nat.add_lt_add_right (Nat.lt_succ_self _) _

section

variable {place : Place δ} {dsts : DstsCtx δ}

theorem UnderWay.keepPorts (h : UnderWay place dsts) {ports : PortRanges} (hvalid : Valid ports)
    (hclean : ports.dirty = false) (hranges : ports.ranges = (undirtify dsts.currdst.ports).ranges)
    (hentries : ports.entries = (undirtify dsts.currdst.ports).entries)
    (htrack : Ports.OnTrack ports) : UnderWay place (keepPorts dsts ports) := by
  obtain ⟨before, dst, after, hbuf, hnext, hbefore, -, hdst, hafter⟩ := h.stored
  rw [← hranges] at hdst
  refine ⟨h.finited, ⟨before, dst.withRanges ports.ranges, after, ?_, hnext, hbefore, hdst, ?_,
    hafter⟩, h.curraddr_eq, h.data_eq, ?_, h.addrs_onTrack, hvalid, ?_⟩
  · simp only [Dsts.keepPorts]
    rw [hbuf, hnext, Nat.add_sub_cancel, List.modify_eq_take_drop, List.take_left, List.drop_left]
    rfl
  · simp only [Dsts.keepPorts]
    rw [undirtify_of_clean hclean]
    exact hdst
  · rw [← h.portsOf_eq]
    simp only [portsOf, Dsts.keepPorts, Ports.ports]
    rw [undirtify_of_clean hclean, hentries]
  · simp only [Dsts.keepPorts]
    rwa [undirtify_of_clean hclean]

theorem dstsNextAgain_spec (fuel : ℕ) : ∀ {place : Place δ} {dsts : DstsCtx δ},
    UnderWay place dsts → work place dsts < fuel →
    (pending place dsts = [] ∧ ∃ dsts', dstsNextAgain fuel dsts = some (none, dsts') ∧
      Rested place.added dsts') ∨
    (∃ x place' dsts', dstsNextAgain fuel dsts = some (some x, dsts') ∧
      pending place dsts = x :: pending place' dsts' ∧ UnderWay place' dsts' ∧
      place'.added = place.added ∧ work place' dsts' ≤ work place dsts) := by
  induction fuel with
  | zero => exact fun _ h => absurd h (Nat.not_lt_zero _)
  | succ fuel ih =>
    intro place dsts h hfuel
    obtain ⟨hleft, hvalid, hclean, hranges, hentries⟩ :=
      portRangesNext_left h.ports_valid h.ports_onTrack
    unfold dstsNextAgain
    generalize portRangesNext dsts.currdst.ports = result at hleft hvalid hclean hranges hentries ⊢
    obtain ⟨out, ports⟩ := result
    cases out with
    | some port =>
      obtain ⟨hcons, htrack⟩ := hleft
      have hkept := h.keepPorts hvalid hclean hranges hentries htrack
      refine Or.inr ⟨⟨place.addr, port, place.dst.data⟩, place, keepPorts dsts ports, ?_, ?_, hkept,
        rfl, Nat.le_refl _⟩
      · dsimp only
        rw [hkept.curraddr_eq]
        rw [hkept.data_eq]
      · rw [pending, hcons, pending]
        simp only [Dsts.keepPorts]
        rw [undirtify_of_clean hclean]
        rfl
    | none =>
      obtain ⟨hnil, hstart⟩ := hleft
      have hkept := h.keepPorts hvalid hclean hranges hentries (onTrack_atStart hvalid hstart)
      have hpending : pending place dsts = (addrsLeft dsts.currdst.addrs).flatMap
          (withPorts place.dst) ++ place.after.flatMap enumeration := by
        rw [pending, hnil]
        rfl
      have hall : portsLeft (undirtify ports) = portsOf place.dst := by
        rw [undirtify_of_clean hclean, portsLeft_atStart hvalid.nranges_le hstart,
          ← hkept.portsOf_eq]
        simp only [portsOf, Dsts.keepPorts]
        rw [undirtify_of_clean hclean]
      have haddrs := ipBlocksNext_left h.addrs_onTrack
      have hsame : (keepPorts dsts ports).currdst.addrs = dsts.currdst.addrs := rfl
      dsimp only
      rw [hsame]
      generalize ipBlocksNext dsts.currdst.addrs = result at haddrs ⊢
      obtain ⟨out, addrs⟩ := result
      cases out with
      | some addr =>
        obtain ⟨hcons, htrack, -, -⟩ := haddrs
        have hwork : work place dsts = (addrsLeft addrs).length + 1 + total place.after := by
          rw [work, hcons, List.length_cons]
        have hstep := @ih { place with addr := addr } { keepPorts dsts ports with
            currdst := { (keepPorts dsts ports).currdst with addrs := addrs }, curraddr := some addr }
          ⟨hkept.finited, hkept.stored, rfl, hkept.data_eq, hkept.portsOf_eq, htrack,
            hkept.ports_valid, hkept.ports_onTrack⟩ (by
              rw [hwork] at hfuel
              simp only [work]
              omega)
        have hpending' : pending { place with addr := addr } { keepPorts dsts ports with
            currdst := { (keepPorts dsts ports).currdst with addrs := addrs },
            curraddr := some addr } = pending place dsts := by
          rw [hpending, hcons, pending]
          simp only [Dsts.keepPorts]
          rw [hall, List.flatMap_cons, List.append_assoc]
          rfl
        rw [hpending'] at hstep
        obtain hend | ⟨x, place', dsts', hsome, hx, hunder, hadded, hle⟩ := hstep
        · exact Or.inl hend
        · refine Or.inr ⟨x, place', dsts', hsome, hx, hunder, hadded, hle.trans ?_⟩
          rw [hwork]
          simp only [work]
          omega
      | none =>
        obtain ⟨hnone, -⟩ := haddrs
        have hwork : work place dsts = total place.after := by
          rw [work, hnone, List.length_nil, Nat.zero_add]
        rw [hnone, List.flatMap_nil, List.nil_append] at hpending
        obtain ⟨before, dst, after, hbuf, hnext, hbefore, hdst, -, hafter⟩ := hkept.stored
        have hlen : after.length ≤ (keepPorts dsts ports).buf.length := by
          rw [hbuf, List.length_append, List.length_cons]
          omega
        have hdone := List.rel_append hbefore (List.Forall₂.cons hdst List.Forall₂.nil)
        have hloop := @dstsNextDstLoop_spec δ (keepPorts dsts ports).buf.length
          { keepPorts dsts ports with
            currdst := { (keepPorts dsts ports).currdst with addrs := addrs } } _ _ (before ++ [dst]) after
          (by rw [hbuf, List.append_assoc]; rfl) (by rw [hnext, List.length_append]; rfl) hlen hdone
          hafter
        unfold dstsNextDst
        dsimp only
        obtain ⟨hempty, dsts', hloop, hbuf', -⟩ | ⟨place', dsts', hloop, hfinited, hunder, hadded,
          hpending', hless⟩ := hloop
        · rw [hloop]
          refine Or.inl ⟨hpending.trans hempty, _, rfl, rfl, ?_⟩
          rw [hbuf', Place.added]
          dsimp only
          rw [hbuf]
          exact List.rel_append hbefore (List.Forall₂.cons hdst hafter)
        · rw [hloop]
          have hsame : { dsts' with finited := true } = dsts' := by
            rw [← hkept.finited, ← hfinited]
          rw [hsame] at hunder
          rw [hpending, ← hpending', hwork]
          rw [List.append_assoc] at hadded
          have hstep := ih hunder (by omega)
          rw [hadded] at hstep
          obtain hend | ⟨x, place'', dsts'', hsome, hx, hunder', hadded', hle⟩ := hstep
          · exact Or.inl hend
          · exact Or.inr ⟨x, place'', dsts'', hsome, hx, hunder', hadded',
              hle.trans (Nat.le_of_lt hless)⟩

theorem dstsNext_underWay (h : UnderWay place dsts) (fuel : ℕ) :
    dstsNext fuel dsts = dstsNextAgain fuel dsts := by
  obtain ⟨before, dst, after, hbuf, -⟩ := h.stored
  rw [dstsNext, if_neg, if_pos h.finited]
  rw [hbuf]
  exact List.append_ne_nil_of_right_ne_nil _ (List.cons_ne_nil _ _)

theorem cycle_underWay {fuel : ℕ} (items : List (Destination δ)) : ∀ {place : Place δ}
    {dsts : DstsCtx δ}, UnderWay place dsts → work place dsts < fuel →
    pending place dsts = items →
    ∃ final, Cycle (dstsNext fuel) dsts items final ∧ Rested place.added final := by
  induction items with
  | nil =>
    intro place dsts h hfuel hitems
    obtain ⟨-, dsts', hnone, hrested⟩ | ⟨x, place', dsts', -, hx, -⟩ := dstsNextAgain_spec fuel h hfuel
    · exact ⟨dsts', Cycle.finish ((dstsNext_underWay h fuel).trans hnone), hrested⟩
    · rw [hitems] at hx
      exact absurd hx (List.cons_ne_nil _ _).symm
  | cons x items ih =>
    intro place dsts h hfuel hitems
    obtain ⟨hempty, -⟩ | ⟨y, place', dsts', hsome, hy, hunder, hadded, hle⟩ :=
      dstsNextAgain_spec fuel h hfuel
    · rw [hitems] at hempty
      exact absurd hempty (List.cons_ne_nil _ _)
    · obtain ⟨rfl, hrest⟩ := List.cons.inj (hitems.symm.trans hy)
      obtain ⟨final, hcycle, hrested⟩ := ih hunder (hle.trans_lt hfuel) hrest.symm
      rw [hadded] at hrested
      exact ⟨final, Cycle.item ((dstsNext_underWay h fuel).trans hsome) hcycle, hrested⟩

theorem cycle_rested {added : List (DstCtx δ)} {fuel : ℕ} (h : Rested added dsts)
    (hfuel : total added ≤ fuel) :
    ∃ final, Cycle (dstsNext fuel) dsts (added.flatMap enumeration) final ∧ Rested added final := by
  obtain ⟨hfinited, hstored⟩ := h
  by_cases hbuf : dsts.buf = []
  · rw [hbuf] at hstored
    cases hstored
    refine ⟨dsts, Cycle.finish ?_, hfinited, ?_⟩
    · rw [dstsNext, if_pos hbuf]
    · rw [hbuf]
      exact List.Forall₂.nil
  · have hnot : ¬ dsts.finited = true := by
      rw [hfinited]
      exact Bool.false_ne_true
    obtain ⟨hempty, dsts', hloop, hbuf', hfinited'⟩ | ⟨place, dsts', hloop, -, hunder, hadded, hpending,
      hless⟩ := @dstsNextDstLoop_spec δ dsts.buf.length { dsts with dstsNext := 0 } [] added [] dsts.buf
        rfl rfl (Nat.le_refl _) List.Forall₂.nil hstored
    · rw [hempty]
      refine ⟨dsts', Cycle.finish ?_, hfinited'.trans hfinited, ?_⟩
      · rw [dstsNext, if_neg hbuf, if_neg hnot, dstsNextDst, hloop]
      · rw [hbuf']
        exact hstored
    · have hfirst : dstsNext fuel dsts = dstsNext fuel { dsts' with finited := true } := by
        rw [dstsNext_underWay hunder, dstsNext, if_neg hbuf, if_neg hnot, dstsNextDst, hloop]
      obtain ⟨final, hcycle, hrested⟩ := cycle_underWay _ hunder (hless.trans_le hfuel) hpending
      rw [List.nil_append] at hadded
      rw [hadded] at hrested
      exact ⟨final, cycle_of_eq hfirst hcycle, hrested⟩

theorem chain_rested {added : List (DstCtx δ)} {fuel : ℕ} (h : Rested added dsts)
    (hfuel : total added ≤ fuel) (n : ℕ) :
    ∃ final, Chain (dstsNext fuel) dsts (List.replicate n (added.flatMap enumeration)) final := by
  obtain ⟨runs, final, hchain, hlen, hruns⟩ := @chain_of_invariant _ _ (dstsNext fuel)
    (Rested added) (fun run => run = added.flatMap enumeration) (by
      intro dsts h
      obtain ⟨final, hcycle, hrested⟩ := cycle_rested h hfuel
      exact ⟨_, final, hcycle, rfl, hrested⟩) n dsts h
  rw [List.eq_replicate_iff.mpr ⟨hlen, hruns⟩] at hchain
  exact ⟨final, hchain⟩

end

end Yans.Net.Dsts
