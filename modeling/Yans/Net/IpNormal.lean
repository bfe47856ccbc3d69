import Yans.Net.IpText

/-! The normal form of a set of addresses. The merge looks at the address after
the last one of a block, which is the lowest address of the family when the block
ends at the highest: no block but one that starts there is merged into it. -/
namespace Yans.Net.Ip

open Library Library.Memory Library.Intervals Util

/-- Ascending with IPv4 before IPv6 and at least one address between neighbours of
one family, for the same addresses. -/
structure NormalForm (entries given : List IpBlock) : Prop where
  gapped : Gapped IpBlock.lo IpBlock.hi entries
  contains : ∀ addr, (∃ b ∈ entries, b.Contains addr) ↔ ∃ b ∈ given, b.Contains addr

/-- A block that ends at the highest address of its family, and another that comes
after it in the order of `blockcmp` and does not start at the lowest. -/
def TopOverlap (given : List IpBlock) : Prop :=
  ∃ a b, [a, b].Subperm given ∧ a.realm = b.realm ∧ a.hi = top a.realm ∧
    b.lo ≠ bottom a.realm ∧ blockcmp a b ≤ 0

def Zoneless (given : List IpBlock) : Prop := ∀ b ∈ given, b.realm = none ∨ b.realm = some 0

variable {b : IpBlock}

theorem ok_of_isPrefixBlock {a : IpAddr} {p : ℕ} (h : IsPrefixBlock a p b) : b.Ok := by
  refine ⟨sameFamily_of_realm (h.realm_first.trans h.realm_last.symm), ?_⟩
  unfold IpBlock.lo IpBlock.hi
  rw [h.ord_last]
  exact Nat.le_add_right _ _

section

variable {getaddrinfo : Bytes → Option (List (Option IpAddr))}

theorem ok_of_ipBlockFromAddrs {a₁ a₂ : IpAddr} {b : IpBlock}
    (h : ipBlockFromAddrs a₁ a₂ = some b) : b.Ok := by
  unfold ipBlockFromAddrs at h
  split at h
  · exact absurd h (by simp)
  rename_i hfamily
  rw [Bool.not_eq_true, Bool.not_eq_false] at hfamily
  split at h
  · rename_i hlt
    cases h
    exact ⟨hfamily, Nat.le_of_lt (ipAddrCmp_neg.mp hlt)⟩
  · rename_i hge
    cases h
    refine ⟨?_, ipAddrCmp_nonneg.mp (Int.not_lt.mp hge)⟩
    cases a₁ <;> cases a₂ <;> first | rfl | exact absurd hfamily Bool.false_ne_true

variable {s : Bytes}

theorem ok_of_ipBlockFromStr {b : IpBlock} (h : ipBlockFromStr getaddrinfo s = some b) :
    b.Ok := by
  unfold ipBlockFromStr at h
  dsimp only at h
  split at h
  · unfold ipBlockCidr at h
    split at h
    · exact absurd h (by simp)
    dsimp only at h
    split at h
    · exact absurd h (by simp)
    split at h
    · split at h
      · exact absurd h (by simp)
      · rename_i hp
        obtain rfl := Option.some.inj h
        exact ok_of_isPrefixBlock (ip4BlockMask_isPrefixBlock (Nat.not_lt.mp hp))
    · split at h
      · exact absurd h (by simp)
      · rename_i hp
        obtain rfl := Option.some.inj h
        exact ok_of_isPrefixBlock (ip6BlockMask_isPrefixBlock (Nat.not_lt.mp hp))
  · split at h
    · unfold ipBlockRange at h
      split at h
      · exact absurd h (by simp)
      split at h
      · exact absurd h (by simp)
      · exact ok_of_ipBlockFromAddrs h
    · obtain ⟨a, -, rfl⟩ := Option.map_eq_some_iff.mp h
      exact ⟨by cases a <;> rfl, Nat.le_refl _⟩

theorem ok_of_consBlock {blocks blocks' : List IpBlock} {start stop : ℕ}
    (h : consBlock getaddrinfo blocks s start stop = some blocks')
    (hok : ∀ b ∈ blocks, b.Ok) : ∀ b ∈ blocks', b.Ok := by
  obtain ⟨blk, hblk, rfl⟩ := Option.map_eq_some_iff.mp h
  intro b hb
  obtain hb | hb := List.mem_append.mp hb
  · exact hok b hb
  · rw [List.mem_singleton.mp hb]
    exact ok_of_ipBlockFromStr hblk

theorem ok_of_findBlocks {given : List IpBlock} (rest : Bytes) :
    ∀ {pos : ℕ} {addrstart : Option ℕ} {blocks : List IpBlock},
    findBlocks getaddrinfo s pos addrstart blocks rest = some given →
    (∀ b ∈ blocks, b.Ok) → ∀ b ∈ given, b.Ok := by
  induction rest with
  | nil =>
    intro pos addrstart blocks h hok
    cases addrstart with
    | none =>
      cases h
      exact hok
    | some start => exact ok_of_consBlock h hok
  | cons c rest ih =>
    intro pos addrstart blocks h hok
    unfold findBlocks at h
    split at h
    · split at h
      · exact ih h hok
      · exact ih h hok
    · split at h
      · split at h
        · exact absurd h (by simp)
        · rename_i hcons
          exact ih h (ok_of_consBlock hcons hok)
      · exact ih h hok

/-- The blocks that are kept: those of the text, sorted and merged. -/
def stored (qsort : Qsort) (given : List IpBlock) : List IpBlock :=
  Compaction.merge joins absorb (qsort.sort given)

theorem ipBlocksInit_of_findBlocks (qsort : Qsort) {given : List IpBlock}
    (h : findBlocks getaddrinfo s 0 none [] s = some given) :
    ∃ blks, ipBlocksInit getaddrinfo qsort s = some blks ∧ blks.entries = stored qsort given ∧
      blks.nblocks = (stored qsort given).length ∧ blks.currBlock = 0 ∧ blks.currAddr = none := by
  unfold ipBlocksInit stored
  rw [h]
  cases given with
  | nil =>
    rw [(qsort.perm []).eq_nil]
    exact ⟨_, rfl, rfl, rfl, rfl, rfl⟩
  | cons first rest =>
    obtain ⟨tail, hcompress⟩ := compressBlocks_spec qsort (List.cons_ne_nil first rest)
    dsimp only
    rw [hcompress]
    exact ⟨_, rfl, List.take_left, rfl, rfl, rfl⟩

end

variable {given : List IpBlock}

theorem stored_spec (qsort : Qsort) (hok : ∀ b ∈ given, b.Ok) :
    SortedByLo IpBlock.lo (stored qsort given) ∧ (∀ b ∈ stored qsort given, b.Ok) ∧
      (∀ addr, (∃ b ∈ stored qsort given, b.Contains addr) ↔ ∃ b ∈ given, b.Contains addr) ∧
      ∀ d ≤ 1, (Realms.Apart IpBlock.lo IpBlock.hi IpBlock.realm d (stored qsort given) ↔
        Realms.Clear IpBlock.lo IpBlock.hi IpBlock.realm bottom top d (qsort.sort given)) := by
  have hperm := qsort.perm given
  obtain ⟨hsorted, hmerged, hcovers, hapart⟩ := Realms.merge_spec joining (sort_sorted qsort given)
    (fun b hb => hok b (hperm.mem_iff.mp hb))
  refine ⟨hsorted, hmerged, fun addr => (hcovers (realm addr) (ord addr)).trans ?_, hapart⟩
  simp only [Realms.CoversIn, hperm.mem_iff]
  rfl

variable {a : IpBlock}

theorem realm_of_lo_le (hle : a.lo ≤ b.lo)
    (hza : a.realm = none ∨ a.realm = some 0) (hzb : b.realm = none ∨ b.realm = some 0)
    (hne : a.realm ≠ b.realm) : a.realm = none ∧ b.realm = some 0 := by
  have hbottom := bottom_le_ord a.first
  have htop := ord_le_top b.first
  unfold IpBlock.lo IpBlock.realm at *
  obtain hza | hza := hza
  · exact ⟨hza, hzb.resolve_left fun h => hne (hza.trans h.symm)⟩
  · obtain hzb | hzb := hzb
    · rw [hza] at hbottom
      rw [hzb] at htop
      simp only [top, bottom] at hbottom htop
      omega
    · exact absurd (hza.trans hzb.symm) hne

theorem gapped_iff_apart {entries : List IpBlock} (hsorted : SortedByLo IpBlock.lo entries)
    (hok : ∀ b ∈ entries, b.Ok) (hzone : Zoneless entries) :
    Gapped IpBlock.lo IpBlock.hi entries ↔
      Realms.Apart IpBlock.lo IpBlock.hi IpBlock.realm 1 entries := by
  constructor
  · intro h
    apply h.imp
    intro a b hlt _
    exact hlt
  · intro h
    apply (hsorted.and h).imp_of_mem
    rintro a b ha hb ⟨hle, hapart⟩
    by_cases hrealm : a.realm = b.realm
    · exact hapart hrealm
    · obtain ⟨hv4, hv6⟩ := realm_of_lo_le hle (hzone a ha) (hzone b hb) hrealm
      have htop := joining.le_top a (hok a ha)
      have hbottom := bottom_le_ord b.first
      rw [hv4] at htop
      rw [← IpBlock.realm, hv6] at hbottom
      simp only [top] at htop
      simp only [bottom] at hbottom
      unfold IpBlock.lo
      omega

theorem sublist_of_split {before between after : List IpBlock} :
    [a, b].Sublist (before ++ a :: (between ++ b :: after)) := by
  have hb : [b].Sublist (between ++ b :: after) := List.singleton_sublist.mpr (by simp)
  exact (hb.cons_cons a).trans (List.sublist_append_right _ _)

theorem split_of_sublist {l : List IpBlock} (h : [a, b].Sublist l) :
    ∃ before between after, l = before ++ a :: (between ++ b :: after) := by
  obtain ⟨left, right, rfl, ha, hb⟩ := List.cons_sublist_iff.mp h
  obtain ⟨before, between, rfl⟩ := List.append_of_mem ha
  obtain ⟨between', after, rfl⟩ := List.append_of_mem (List.singleton_sublist.mp hb)
  exact ⟨before, between ++ between', after, by simp⟩

theorem sublist_of_subperm {l : List IpBlock} (h : [a, b].Subperm l) :
    [a, b].Sublist l ∨ [b, a].Sublist l := by
  obtain ⟨l', hperm, hsub⟩ := h
  obtain ⟨left, right, rfl⟩ := List.append_of_mem (hperm.mem_iff.mpr List.mem_cons_self)
  have hrest : left ++ right = [b] :=
    List.perm_singleton.mp ((List.perm_middle.symm.trans hperm).cons_inv)
  obtain ⟨rfl, rfl⟩ | ⟨rfl, rfl⟩ := List.append_eq_singleton_iff.mp hrest
  · exact Or.inl hsub
  · exact Or.inr hsub

theorem clear_iff_not_topOverlap (qsort : Qsort) (hok : ∀ b ∈ given, b.Ok)
    (hzone : Zoneless given) :
    Realms.Clear IpBlock.lo IpBlock.hi IpBlock.realm bottom top 1 (qsort.sort given) ↔
      ¬ TopOverlap given := by
  have hperm := qsort.perm given
  have hmem : ∀ {b : IpBlock}, b ∈ qsort.sort given → b ∈ given := fun hb => hperm.mem_iff.mp hb
  have hlow : ∀ {a b : IpBlock}, b ∈ given → a.realm = b.realm → b.lo ≤ top a.realm := by
    intro a b hb hrealm
    rw [hrealm]
    exact (joining.le b (hok b hb)).trans (joining.le_top b (hok b hb))
  constructor
  · rintro hclear ⟨a, b, hsub, hrealm, hhi, hlo, hcmp⟩
    rw [← hperm.subperm_left] at hsub
    have ha : a ∈ given := hmem (hsub.subset (by simp))
    have hb : b ∈ given := hmem (hsub.subset (by simp))
    obtain hsub | hsub := sublist_of_subperm hsub
    · obtain ⟨before, between, after, hsplit⟩ := split_of_sublist hsub
      have hle := hlow hb hrealm
      exact hlo ((hclear before a between b after hsplit hrealm (by omega)).2 hhi)
    · -- in the other order the blocks compare equal
      obtain ⟨before, between, after, hsplit⟩ := split_of_sublist hsub
      have hsorted := qsort.sorted given
      have hcmp' : blockcmp b a ≤ 0 := List.pairwise_iff_forall_sublist.mp hsorted hsub
      rw [blockcmp_le] at hcmp hcmp'
      have hle := hlow ha hrealm.symm
      rw [← hrealm] at hle
      have hsame := (hclear before b between a after hsplit hrealm.symm (by omega)).2
      rw [← hrealm] at hsame
      have hlo' := hsame (by omega)
      omega
  · intro hnone before a between b after hsplit hrealm _
    have hsub : [a, b].Sublist (qsort.sort given) := by
      rw [hsplit]
      exact sublist_of_split
    have ha : a ∈ given := hmem (hsub.subset (by simp))
    have hb : b ∈ given := hmem (hsub.subset (by simp))
    have hsorted := sort_sorted qsort given
    constructor
    · intro e he
      have heg : e ∈ given := hmem (by rw [hsplit]; simp [he])
      rw [hsplit, SortedByLo, List.pairwise_append, List.pairwise_cons, List.pairwise_append] at hsorted
      have hae : a.lo ≤ e.lo := hsorted.2.1.1 e (by simp [he])
      have heb : e.lo ≤ b.lo := hsorted.2.1.2.2.2 e he b List.mem_cons_self
      by_contra hne
      have hv6 := (realm_of_lo_le hae (hzone a ha) (hzone e heg) (Ne.symm hne)).2
      rw [hrealm] at hne
      have hv4 := (realm_of_lo_le heb (hzone e heg) (hzone b hb) hne).1
      rw [hv6] at hv4
      exact absurd hv4 (by simp)
    · intro hhi
      by_contra hlo
      apply hnone
      refine ⟨a, b, hperm.subperm_left.mp hsub.subperm, hrealm, hhi, hlo, ?_⟩
      exact List.pairwise_iff_forall_sublist.mp (qsort.sorted given) hsub

theorem normalForm_iff (qsort : Qsort) (hok : ∀ b ∈ given, b.Ok)
    (hzone : Zoneless given) :
    NormalForm (stored qsort given) given ↔ ¬ TopOverlap given := by
  obtain ⟨hsorted, hstored, hcontains, hapart⟩ := stored_spec qsort hok
  have hzone' : Zoneless (stored qsort given) := by
    intro e he
    obtain ⟨b, hb, hrealm, -⟩ := (hcontains e.first).mp ⟨e, he, rfl, le_rfl, (hstored e he).2⟩
    have hb_zone := hzone b hb
    rw [hrealm] at hb_zone
    exact hb_zone
  rw [← clear_iff_not_topOverlap qsort hok hzone, ← hapart 1 le_rfl,
    ← gapped_iff_apart hsorted hstored hzone']
  constructor
  · exact fun h => h.gapped
  · exact fun h => ⟨h, hcontains⟩

theorem ok_of_blockList {getaddrinfo : Bytes → Option (List (Option IpAddr))} {s : Bytes}
    (hs : BlockList getaddrinfo s given) : ∀ b ∈ given, b.Ok := by
  have hfound := findBlocks_of_list hs [] []
  exact ok_of_findBlocks s hfound (by simp)

/-- `ip_blocks_init` makes a normal form of a list of blocks without zone ids
exactly when no block lies above one that ends at the top of the family. -/
theorem ip_blocks_init_normal_form_iff {getaddrinfo : Bytes → Option (List (Option IpAddr))}
    (qsort : Qsort) {s : Bytes} {given : List IpBlock} (hs : BlockList getaddrinfo s given)
    (hzone : Zoneless given) :
    (∃ blks, ipBlocksInit getaddrinfo qsort s = some blks ∧ NormalForm blks.entries given) ↔
      ¬ TopOverlap given := by
  obtain ⟨blks, hinit, hentries, -⟩ := ipBlocksInit_of_findBlocks qsort (findBlocks_of_list hs [] [])
  rw [← normalForm_iff qsort (ok_of_blockList hs) hzone]
  rw [List.nil_append] at hentries
  constructor
  · rintro ⟨blks', hinit', hnormal⟩
    rw [List.nil_append, hinit'] at hinit
    rw [Option.some.inj hinit, hentries] at hnormal
    exact hnormal
  · intro hnormal
    rw [← hentries] at hnormal
    exact ⟨blks, hinit, hnormal⟩

/-- A `qsort` that keeps the order of blocks that compare equal. -/
def stableQsort : Qsort where
  sort := fun blocks => blocks.insertionSort fun b₀ b₁ => blockcmp b₀ b₁ ≤ 0
  perm := fun blocks => List.perm_insertionSort _ blocks
  sorted := fun blocks => pairwise_insertionSort blockcmp (fun _ _ => blockcmp_le) blocks

/-- A `getaddrinfo` that knows some texts. -/
def lookup (table : List (Bytes × IpAddr)) (text : Bytes) : Option (List (Option IpAddr)) :=
  (table.lookup text).map fun addr => [some addr]

theorem lookup_text {table : List (Bytes × IpAddr)} {text : Bytes} {addr : IpAddr}
    (hne : text ≠ []) (hclean : ∀ c ∈ text, isIpBlocksSep c = false ∧ c ≠ slash ∧ c ≠ dash)
    (hread : table.lookup text = some addr) : AddrText (lookup table) text addr where
  ne_nil := hne
  clean := hclean
  read := ⟨[some addr], by rw [lookup, hread]; rfl, rfl⟩

/-- The text "10.0.0.1". -/
def hostOne : Bytes := [49, 48, 46, 48, 46, 48, 46, 49]

/-- The text "10.0.0.2". -/
def hostTwo : Bytes := [49, 48, 46, 48, 46, 48, 46, 50]

/-- The text "255.255.255.255". -/
def hostTop : Bytes := [50, 53, 53, 46, 50, 53, 53, 46, 50, 53, 53, 46, 50, 53, 53]

def oneHost : List (Bytes × IpAddr) := [(hostOne, .v4 0x0a000001)]

def twoHosts : List (Bytes × IpAddr) := oneHost ++ [(hostTwo, .v4 0x0a000002)]

def topHost : List (Bytes × IpAddr) := [(hostTop, .v4 0xffffffff)]

/-- The text "10.0.0.2,10.0.0.1". -/
theorem ip_blocks_init_normal_form_two :
    ∃ blks, ipBlocksInit (lookup twoHosts) stableQsort (hostTwo ++ 44 :: hostOne) = some blks ∧
      NormalForm blks.entries
        [⟨.v4 0x0a000002, .v4 0x0a000002⟩, ⟨.v4 0x0a000001, .v4 0x0a000001⟩] := by
  have htwo := BlockText.addr (@lookup_text twoHosts hostTwo (.v4 0x0a000002) (by decide)
    (by decide) rfl)
  have hone := BlockText.addr (@lookup_text twoHosts hostOne (.v4 0x0a000001) (by decide)
    (by decide) rfl)
  apply (ip_blocks_init_normal_form_iff stableQsort
    (.block htwo (by decide) rfl (.last hone (by decide)))
    (by simp [Zoneless, IpBlock.realm, realm])).mpr
  rintro ⟨a, b, hsub, -, hhi, -⟩
  have ha := hsub.subset List.mem_cons_self
  rw [List.mem_cons, List.mem_singleton] at ha
  obtain rfl | rfl := ha
  · exact absurd hhi (by decide)
  · exact absurd hhi (by decide)

/-- The text "255.255.255.255,255.255.255.255": the address stays in two blocks. -/
theorem highest_address_twice :
    ¬ ∃ blks, ipBlocksInit (lookup topHost) stableQsort (hostTop ++ 44 :: hostTop) = some blks ∧
      NormalForm blks.entries
        [⟨.v4 0xffffffff, .v4 0xffffffff⟩, ⟨.v4 0xffffffff, .v4 0xffffffff⟩] := by
  have htext := BlockText.addr (@lookup_text topHost hostTop (.v4 0xffffffff) (by decide)
    (by decide) rfl)
  have hlist := BlockList.block htext (by decide) (c := 44) rfl (.last htext (by decide))
  obtain ⟨blks, hinit, hentries, -⟩ :=
    ipBlocksInit_of_findBlocks stableQsort (findBlocks_of_list hlist [] [])
  rintro ⟨blks', hinit', hnormal⟩
  rw [Option.some.inj (hinit'.symm.trans hinit), hentries] at hnormal
  apply (normalForm_iff stableQsort (ok_of_blockList hlist)
    (by simp [Zoneless, IpBlock.realm, realm])).mp hnormal
  exact ⟨_, _, List.Subperm.refl _, rfl, by decide, by decide, by decide⟩

end Yans.Net.Ip
