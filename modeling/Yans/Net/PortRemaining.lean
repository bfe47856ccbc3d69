import Yans.Library.Cycles
import Yans.Net.PortIteration

/-! `port_ranges_to_buf` in the middle of an iteration: the text it writes is a
list of the ports that are still to come, and `port_ranges_from_str` makes a set
of them again. -/
namespace Yans.Net.Ports

open Library Library.Memory Library.Decimal Library.Intervals Library.Cursor Library.Cycles Util

theorem length_rangeText_lt (r : PortRange) :
    0 < (rangeText r).length ∧ (rangeText r).length ≤ 11 := by
  have hstart := length_numeral_lt 4 (Nat.lt_trans r.start.toNat_lt (by decide))
  have hend := length_numeral_lt 4 (Nat.lt_trans r.end_.toNat_lt (by decide))
  have hpos := List.length_pos_iff.mpr (numeral_ne_nil r.start.toNat)
  unfold rangeText
  split
  · omega
  · rw [List.length_append, List.length_cons]
    omega

theorem appendRange_eq (buf : Buf) (r : PortRange) {sep : Bytes} (hsep : sep.length ≤ 1) :
    appendRange buf r sep = some (buf.adata (sep ++ rangeText r)) := by
  have hlength := length_rangeText_lt r
  unfold appendRange padSize
  apply if_neg
  rw [List.length_append]
  omega

theorem printRanges_eq (rest : List PortRange) : ∀ buf : Buf,
    ∃ after, printRanges buf rest = some after ∧
      after.contents = buf.contents ++ rest.flatMap fun r => 32 :: rangeText r := by
  induction rest with
  | nil => exact fun buf => ⟨buf, rfl, (List.append_nil _).symm⟩
  | cons r rest ih =>
    intro buf
    obtain ⟨after, hprint, hcontents⟩ := ih (buf.adata ([32] ++ rangeText r))
    refine ⟨after, ?_, ?_⟩
    · rw [printRanges, appendRange_eq buf r (le_refl 1)]
      exact hprint
    · rw [hcontents, Buf.contents_adata, List.flatMap_cons, List.append_assoc]
      rfl

theorem number_numeral (n : UInt16) : Number (numeral n.toNat) n.toNat :=
  ⟨numeral_ne_nil _, isDigit_of_mem_numeral _, value_numeral _, Nat.le_of_lt_succ n.toNat_lt⟩

theorem element_rangeText {r : PortRange} (h : r.lo ≤ r.hi) : Element (rangeText r) r := by
  obtain ⟨start, last⟩ := r
  change start.toNat ≤ last.toNat at h
  unfold rangeText
  split
  · rename_i hsame
    dsimp only at hsame ⊢
    have hrange : (⟨start, last⟩ : PortRange) = between start.toNat start.toNat := by
      rw [between, Nat.min_self, Nat.max_self, UInt16.ofNat_toNat, hsame]
    rw [hrange]
    exact Element.port (number_numeral start)
  · have hrange : (⟨start, last⟩ : PortRange) = between start.toNat last.toNat := by
      rw [between, Nat.min_eq_left h, Nat.max_eq_right h, UInt16.ofNat_toNat, UInt16.ofNat_toNat]
    have htext := Element.range (number_numeral start) (number_numeral last)
    rwa [← hrange] at htext

theorem portList_rangeText (rest : List PortRange) : ∀ {r : PortRange},
    Proper PortRange.lo PortRange.hi (r :: rest) →
      PortList (rangeText r ++ rest.flatMap fun r => 32 :: rangeText r) (r :: rest) := by
  induction rest with
  | nil =>
    intro r hproper
    rw [List.flatMap_nil, List.append_nil]
    exact PortList.last (element_rangeText (hproper r List.mem_cons_self))
  | cons next rest ih =>
    intro r hproper
    have hrest := ih fun e he => hproper e (List.mem_cons_of_mem _ he)
    exact PortList.element (element_rangeText (hproper r List.mem_cons_self)) rfl hrest

theorem number_ne_zero {digits : Bytes} {n : ℕ} (h : Number digits n) : ∀ c ∈ digits, c ≠ 0 := by
  rintro c hc rfl
  exact absurd (h.2.1 0 hc) (by decide)

theorem element_ne_zero {text : Bytes} {r : PortRange} (h : Element text r) : ∀ c ∈ text, c ≠ 0 := by
  cases h with
  | port hn => exact number_ne_zero hn
  | range hn hm =>
    intro c hc
    rw [List.mem_append, List.mem_cons] at hc
    rcases hc with hc | rfl | hc
    · exact number_ne_zero hn c hc
    · decide
    · exact number_ne_zero hm c hc

theorem portList_ne_zero {s : Bytes} {list : List PortRange} (h : PortList s list) :
    ∀ c ∈ s, c ≠ 0 := by
  have hsep : ∀ c, isPortRangeSep c = true → c ≠ 0 := by
    rintro c hc rfl
    exact absurd hc (by decide)
  induction h with
  | nil => simp
  | sep hc _ ih =>
    intro c hmem
    obtain rfl | hmem := List.mem_cons.mp hmem
    · exact hsep c hc
    · exact ih c hmem
  | last htext => exact element_ne_zero htext
  | element htext hc _ ih =>
    intro c hmem
    rw [List.mem_append, List.mem_cons] at hmem
    rcases hmem with hmem | rfl | hmem
    · exact element_ne_zero htext c hmem
    · exact hsep c hc
    · exact ih c hmem

def nextPort (rs : PortRanges) : UInt16 :=
  if rs.currRange = 0 ∧ rs.currPort = 0 then (rangeAt rs rs.currRange).start else rs.currPort

theorem toNat_nextPort (rs : PortRanges) : (nextPort rs).toNat = position rs := by
  unfold nextPort position
  split
  · rename_i hstart
    rw [hstart.1]
    rfl
  · rfl

/-- What is left of the current range, and the ranges behind it. -/
def remaining (rs : PortRanges) : List PortRange :=
  if rs.currRange ≥ rs.nranges then []
  else ⟨nextPort rs, (rangeAt rs rs.currRange).end_⟩ :: rs.entries.drop (rs.currRange + 1)

section

variable {rs : PortRanges}

theorem remaining_of_lt (h : rs.currRange < rs.nranges) : remaining rs =
    ⟨nextPort rs, (rangeAt rs rs.currRange).end_⟩ :: rs.entries.drop (rs.currRange + 1) :=
  if_neg (Nat.not_le_of_lt h)

theorem drop_entries (hle : rs.nranges ≤ rs.cap) (h : rs.currRange < rs.nranges) :
    rs.entries.drop rs.currRange =
      rangeAt rs rs.currRange :: rs.entries.drop (rs.currRange + 1) := by
  obtain ⟨hlt, hget⟩ := List.getElem?_eq_some_iff.mp (entries_getElem? hle h)
  rw [List.drop_eq_getElem_cons hlt, hget]

theorem remaining_proper (hvalid : Valid rs) (htrack : OnTrack rs) :
    Proper PortRange.lo PortRange.hi (remaining rs) := by
  by_cases hlt : rs.currRange < rs.nranges
  · rw [remaining_of_lt hlt]
    intro e he
    obtain rfl | he := List.mem_cons.mp he
    · exact (toNat_nextPort rs).le.trans (htrack hlt)
    · exact hvalid.proper e (List.mem_of_mem_drop he)
  · rw [remaining, if_pos (not_lt.mp hlt)]
    simp [Proper]

theorem remaining_gapped (hvalid : Valid rs) (hclean : rs.dirty = false) :
    Gapped PortRange.lo PortRange.hi (remaining rs) := by
  by_cases hlt : rs.currRange < rs.nranges
  · have hgapped : Gapped PortRange.lo PortRange.hi (rs.entries.drop rs.currRange) :=
      (hvalid.gapped hclean).sublist (List.drop_sublist _ _)
    rw [drop_entries hvalid.nranges_le hlt] at hgapped
    rw [remaining_of_lt hlt]
    obtain ⟨hfirst, hrest⟩ := List.pairwise_cons.mp hgapped
    exact List.pairwise_cons.mpr ⟨hfirst, hrest⟩
  · rw [remaining, if_pos (not_lt.mp hlt)]
    exact List.Pairwise.nil

theorem portsLeft_eq_remaining (hle : rs.nranges ≤ rs.cap) :
    portsLeft rs =
      (elements PortRange.lo PortRange.hi (remaining rs)).map UInt16.ofNat := by
  by_cases hlt : rs.currRange < rs.nranges
  · have hlo : PortRange.lo ⟨nextPort rs, (rangeAt rs rs.currRange).end_⟩ = position rs :=
      toNat_nextPort rs
    rw [portsLeft, left, entries_getElem? hle hlt, remaining_of_lt hlt, elements, List.flatMap_cons,
      hlo]
    simp only [rest, all, List.map_append, List.map_map, List.map_flatMap]
    rfl
  · have hnone : rs.entries.length ≤ rs.currRange := by
      rw [length_entries hle]
      exact not_lt.mp hlt
    rw [portsLeft, left_end hnone, remaining, if_pos (not_lt.mp hlt)]
    rfl

end

structure Iterating (rs : PortRanges) : Prop where
  valid : Valid rs
  track : OnTrack (undirtify rs)

theorem Iterating.of_atStart {rs : PortRanges} (hvalid : Valid rs) (h : AtStart rs) :
    Iterating rs := by
  refine ⟨hvalid, onTrack_atStart (undirtify_valid hvalid).1 ?_⟩
  obtain ⟨hrange, hport⟩ := undirtify_curr rs
  exact ⟨hrange.trans h.1, hport.trans h.2⟩

theorem Iterating.next {rs : PortRanges} (h : Iterating rs) {port : UInt16} {rs' : PortRanges}
    (hnext : portRangesNext rs = (some port, rs')) :
    Iterating rs' ∧ portsLeft (undirtify rs) = port :: portsLeft (undirtify rs') := by
  obtain ⟨hcall, hvalid, hclean, -, -⟩ := portRangesNext_left h.valid h.track
  rw [hnext] at hcall hvalid hclean
  have hsame := undirtify_of_clean hclean
  refine ⟨⟨hvalid, ?_⟩, ?_⟩
  · rw [hsame]
    exact hcall.2
  · rw [hsame]
    exact hcall.1

/-- `port_ranges_next` as an iterator. -/
def nextCall (rs : PortRanges) : Option (Option UInt16 × PortRanges) := some (portRangesNext rs)

theorem Iterating.cycle (ports : List UInt16) : ∀ {rs : PortRanges}, Iterating rs →
    portsLeft (undirtify rs) = ports → ∃ after, Cycle nextCall rs ports after := by
  induction ports with
  | nil =>
    intro rs h hports
    obtain ⟨hcall, -⟩ := portRangesNext_left h.valid h.track
    cases hnext : portRangesNext rs with
    | mk out rs' =>
      cases out with
      | none => exact ⟨rs', Cycle.finish (congrArg some hnext)⟩
      | some port =>
        rw [hnext] at hcall
        exact absurd (hcall.1.symm.trans hports) (List.cons_ne_nil _ _)
  | cons port ports ih =>
    intro rs h hports
    obtain ⟨hcall, -⟩ := portRangesNext_left h.valid h.track
    cases hnext : portRangesNext rs with
    | mk out rs' =>
      cases out with
      | none =>
        rw [hnext] at hcall
        exact absurd (hports.symm.trans hcall.1) (List.cons_ne_nil _ _)
      | some found =>
        obtain ⟨hrs', hleft⟩ := h.next hnext
        obtain ⟨rfl, hrest⟩ := List.cons.inj (hleft.symm.trans hports)
        obtain ⟨after, hcycle⟩ := ih hrs' hrest
        exact ⟨after, Cycle.item (congrArg some hnext) hcycle⟩

theorem portRangesToBuf_spec {rs : PortRanges} (h : Iterating rs) (buf : Buf) :
    ∃ after rs', portRangesToBuf rs buf = some (after, rs') ∧
      PortList after.contents (remaining (undirtify rs)) ∧
      Iterating rs' ∧ portsLeft (undirtify rs') = portsLeft (undirtify rs) := by
  obtain ⟨hvalid, hclean, -⟩ := undirtify_valid h.valid
  have htrack := h.track
  unfold portRangesToBuf
  generalize undirtify rs = used at *
  have hused := undirtify_of_clean hclean
  dsimp only
  by_cases hend : used.currRange ≥ used.nranges
  · rw [if_pos hend]
    refine ⟨_, _, rfl, ?_, ⟨hvalid, ?_⟩, ?_⟩
    · rw [Buf.contents_clear, remaining, if_pos hend]
      exact PortList.nil
    · rwa [hused]
    · rw [hused]
  rw [if_neg hend]
  have hlt : used.currRange < used.nranges := Nat.lt_of_not_le hend
  -- entering the first range changes neither the entries nor the position
  have henter : (if used.currRange = 0 ∧ used.currPort = 0 then
      { used with currPort := (rangeAt used used.currRange).start } else used) =
      { used with currPort := nextPort used } := by
    unfold nextPort
    split
    · rfl
    · rfl
  have hposition : position { used with currPort := nextPort used } = position used := by
    rw [← toNat_nextPort, ← toNat_nextPort]
    unfold nextPort
    split_ifs <;> rfl
  have hentered : Valid { used with currPort := nextPort used } :=
    ⟨hvalid.nranges_le, hvalid.proper, hvalid.gapped, hvalid.nranges_ne⟩
  obtain ⟨after, hprint, hcontents⟩ := printRanges_eq (used.entries.drop (used.currRange + 1))
    (buf.clear.adata ([] ++ rangeText ⟨nextPort used, (rangeAt used used.currRange).end_⟩))
  have hproper := remaining_proper hvalid htrack
  rw [remaining_of_lt hlt] at hproper
  have hsame : undirtify { used with currPort := nextPort used } =
      { used with currPort := nextPort used } := undirtify_of_clean hclean
  refine ⟨after, { used with currPort := nextPort used }, ?_, ?_, ⟨hentered, ?_⟩, ?_⟩
  · rw [henter]
    rw [@appendRange_eq _ _ [] (Nat.zero_le 1)]
    change (printRanges _ _).bind _ = _
    rw [show ({ used with currPort := nextPort used } : PortRanges).entries = used.entries from rfl,
      hprint]
    rfl
  · rw [hcontents, Buf.contents_adata, Buf.contents_clear, List.nil_append, List.nil_append,
      remaining_of_lt hlt]
    exact portList_rangeText _ hproper
  · rw [hsame]
    intro _
    rw [hposition]
    exact htrack hlt
  · rw [hsame, portsLeft, hposition]
    rfl

theorem portRangesFromStr_list {s : Bytes} {list : List PortRange} (hlist : PortList s list)
    (hgapped : Gapped PortRange.lo PortRange.hi list) :
    (portRangesFromStr s).1 = none ∧ (portRangesFromStr s).2.entries = list ∧
      Iterating (portRangesFromStr s).2 ∧
      portsLeft (undirtify (portRangesFromStr s).2) =
        (elements PortRange.lo PortRange.hi list).map UInt16.ofNat := by
  have hspec := portRangesFromStr_spec s
  obtain ⟨hvalid, -⟩ := portRangesFromStr_valid s
  revert hspec hvalid
  generalize portRangesFromStr s = parsed
  obtain ⟨result, rs⟩ := parsed
  intro hspec hvalid
  cases result with
  | some off => exact absurd hlist (hspec.2 list)
  | none =>
    obtain ⟨-, hrange, hport, -, hiff⟩ := hspec
    have hentries : rs.entries = list := ((hiff list).mp hlist).symm
    obtain ⟨hused, hclean, hsame⟩ := undirtify_valid hvalid
    obtain ⟨hcurr, hcurrPort⟩ := undirtify_curr rs
    have hstart : AtStart (undirtify rs) := ⟨hcurr.trans hrange, hcurrPort.trans hport⟩
    refine ⟨rfl, hentries, Iterating.of_atStart hvalid ⟨hrange, hport⟩, ?_⟩
    rw [portsLeft_atStart hused.nranges_le hstart, ports,
      elements_eq_of_covers (hused.gapped hclean) hgapped]
    intro n
    rw [hsame.covers, hentries]

/-- `n` calls of `port_ranges_next`, which all return 1. -/
def advance : ℕ → PortRanges → Option PortRanges
  | 0, rs => some rs
  | n + 1, rs =>
    match portRangesNext rs with
    | (none, _) => none
    | (some _, rs) => advance n rs

theorem Iterating.advance (n : ℕ) : ∀ {rs rs' : PortRanges}, Iterating rs →
    Ports.advance n rs = some rs' → Iterating rs' := by
  induction n with
  | zero =>
    intro rs rs' h hadvance
    exact Option.some.inj hadvance ▸ h
  | succ n ih =>
    intro rs rs' h hadvance
    rw [Ports.advance] at hadvance
    cases hnext : portRangesNext rs with
    | mk out mid =>
      rw [hnext] at hadvance
      cases out with
      | none => cases hadvance
      | some port => exact ih (h.next hnext).1 hadvance

section

variable {V : Type*} [DecidableEq V]

theorem prepInsertion_curr (rs : PortRanges) (needed : ℕ) :
    (prepInsertion rs needed).currRange = rs.currRange ∧
      (prepInsertion rs needed).currPort = rs.currPort := by
  have hmaybe : (if rs.nranges > dirtLimit then undirtify rs else rs).currRange = rs.currRange ∧
      (if rs.nranges > dirtLimit then undirtify rs else rs).currPort = rs.currPort := by
    split
    · exact undirtify_curr rs
    · exact ⟨rfl, rfl⟩
  unfold prepInsertion
  dsimp only
  generalize (if rs.nranges > dirtLimit then undirtify rs else rs) = used at hmaybe ⊢
  split
  · exact hmaybe
  · exact hmaybe

theorem atStart_apply {sets : V → PortRanges} {call : Call V} (h : AtStart (sets call.target))
    (hcall : call ≠ .next call.target) : AtStart (call.apply sets) := by
  cases call with
  | fromStr x s =>
    have hspec := portRangesFromStr_spec s
    change AtStart (portRangesFromStr s).2
    revert hspec
    generalize portRangesFromStr s = parsed
    obtain ⟨result, rs⟩ := parsed
    intro hspec
    cases result with
    | some off =>
      obtain ⟨rfl, -⟩ := hspec
      exact ⟨rfl, rfl⟩
    | none => exact ⟨hspec.2.1, hspec.2.2.1⟩
  | addRange x r hr =>
    obtain ⟨hrange, hport⟩ := prepInsertion_curr (sets x) 1
    exact ⟨hrange.trans h.1, hport.trans h.2⟩
  | addPort x port =>
    obtain ⟨hrange, hport⟩ := prepInsertion_curr (sets x) 1
    exact ⟨hrange.trans h.1, hport.trans h.2⟩
  | addRanges x y =>
    obtain ⟨hrange, hport⟩ := prepInsertion_curr (sets x) (sets y).nranges
    change AtStart (portRangesAddRanges (sets x) (sets y) (x = y))
    unfold portRangesAddRanges
    split
    · exact h
    · exact ⟨hrange.trans h.1, hport.trans h.2⟩
  | next x => exact absurd rfl hcall

theorem atStart_run {x : V} (calls : List (Call V)) : ∀ {sets : V → PortRanges},
    AtStart (sets x) → .next x ∉ calls → AtStart (calls.foldl step sets x) := by
  induction calls with
  | nil => exact fun h _ => h
  | cons call calls ih =>
    intro sets h hcalls
    rw [List.mem_cons, not_or] at hcalls
    apply ih _ hcalls.2
    unfold step
    by_cases htarget : x = call.target
    · rw [htarget, Function.update_self]
      rw [htarget] at h hcalls
      exact atStart_apply h fun hnext => hcalls.1 hnext.symm
    · rwa [Function.update_of_ne htarget]

/-- However a set was made and however far its iteration has come: the text that
is written is read back as the ports that were still to come. -/
theorem remaining_ports_survive (calls : List (Call V)) (x : V) (hbuilt : .next x ∉ calls)
    (n : ℕ) (rs : PortRanges) (hadvance : advance n (run calls x) = some rs) (buf : Buf) :
    ∃ after rs' ports, portRangesToBuf rs buf = some (after, rs') ∧
      (∃ last, Cycle nextCall rs ports last) ∧ (∃ last, Cycle nextCall rs' ports last) ∧
      let parsed := portRangesFromStr (stringAt (after.contents ++ [0]) 0)
      parsed.1 = none ∧ (∃ last, Cycle nextCall parsed.2 ports last) ∧
        ports.Pairwise (· < ·) ∧ (ports = [] → parsed.2.nranges = 0) := by
  obtain ⟨hvalid, -⟩ := run_represents calls x
  have hstart : AtStart (run calls x) := atStart_run calls ⟨rfl, rfl⟩ hbuilt
  have h := (Iterating.of_atStart hvalid hstart).advance n hadvance
  obtain ⟨after, rs', htoBuf, hlist, hrs', hsame⟩ := portRangesToBuf_spec h buf
  obtain ⟨hused, hclean, -⟩ := undirtify_valid h.valid
  have hgapped := remaining_gapped hused hclean
  have hstring : stringAt (after.contents ++ [0]) 0 = after.contents := by
    have htext := @stringAt_append [] after.contents [] (portList_ne_zero hlist)
    rwa [List.nil_append, List.append_nil] at htext
  obtain ⟨hresult, hentries, hparsed, hleft⟩ := portRangesFromStr_list hlist hgapped
  rw [← portsLeft_eq_remaining hused.nranges_le] at hleft
  refine ⟨after, rs', _, htoBuf, h.cycle _ rfl, hrs'.cycle _ hsame, ?_⟩
  rw [hstring]
  refine ⟨hresult, hparsed.cycle _ hleft, ?_, ?_⟩
  · rw [portsLeft_eq_remaining hused.nranges_le, List.pairwise_map]
    apply (elements_pairwise hgapped).imp_of_mem
    intro a b ha hb hlt
    have halt := lt_of_covers ((mem_elements _ _).mp ha)
    have hblt := lt_of_covers ((mem_elements _ _).mp hb)
    rwa [UInt16.lt_iff_toNat_lt, UInt16.toNat_ofNat', UInt16.toNat_ofNat', Nat.mod_eq_of_lt halt,
      Nat.mod_eq_of_lt hblt]
  · intro hnone
    rw [portsLeft_eq_remaining hused.nranges_le, List.map_eq_nil_iff] at hnone
    have hlength := length_le_elements (remaining_proper hused h.track)
    rw [hnone, List.length_nil, ← hentries, length_entries hparsed.valid.nranges_le] at hlength
    exact Nat.le_zero.mp hlength

end

theorem undirtify_single (r : PortRange) :
    undirtify (portRangesAddRange .zero r) = ⟨[r], 1, 0, 0, false⟩ := by
  have hadded : portRangesAddRange .zero r = ⟨[r], 1, 0, 0, true⟩ := rfl
  have hcompress : compressRanges [r] 1 = ([r], 1) := by
    rw [compressRanges, Compaction.compact, Compaction.compactLoop, dif_neg (Nat.lt_irrefl 1)]
  have halways : undirtifyAlways ⟨[r], 1, 0, 0, true⟩ =
      ⟨(compressRanges [r] 1).1, (compressRanges [r] 1).2, 0, 0, false⟩ := rfl
  rw [hadded]
  exact halways.trans (by rw [hcompress])

/-- An iteration that stopped inside of a range. -/
theorem remaining_ports_survive_run :
    ∃ rs after rs' ports,
      advance 1 (run [Call.addRange () ⟨5, 6⟩ (by decide)] ()) = some rs ∧
      portRangesToBuf rs (Buf.init 0) = some (after, rs') ∧
      (portRangesFromStr (stringAt (after.contents ++ [0]) 0)).1 = none ∧
      (∃ last, Cycle nextCall (portRangesFromStr (stringAt (after.contents ++ [0]) 0)).2 ports
        last) ∧
      ports.Pairwise (· < ·) := by
  have hbuilt : Call.next () ∉ [Call.addRange () ⟨5, 6⟩ (by decide)] := by
    simp
  have hadvance : advance 1 (run [Call.addRange () ⟨5, 6⟩ (by decide)] ()) =
      some ⟨[⟨5, 6⟩], 1, 0, 6, false⟩ := by
    change advance 1 (portRangesAddRange .zero ⟨5, 6⟩) = _
    rw [advance, portRangesNext, undirtify_single]
    rfl
  obtain ⟨after, rs', ports, htoBuf, -, -, hresult, hcycle, hsorted, -⟩ :=
    remaining_ports_survive _ () hbuilt 1 _ hadvance (Buf.init 0)
  exact ⟨_, after, rs', ports, hadvance, htoBuf, hresult, hcycle, hsorted⟩

/-- A range with its ends the wrong way round: the iteration gives its start
only, but the text is read as all the ports between the two. -/
theorem inverted_range_grows :
    ∃ after rs', portRangesToBuf (portRangesAddRange .zero ⟨6, 5⟩) (Buf.init 0) =
        some (after, rs') ∧
      (∃ last, Cycle nextCall (portRangesAddRange .zero ⟨6, 5⟩) [6] last) ∧
      ¬ ∃ last, Cycle nextCall (portRangesFromStr (stringAt (after.contents ++ [0]) 0)).2 [6]
        last := by
  have htext : rangeText ⟨6, 5⟩ = [54, 45, 53] := by
    change numeral 6 ++ dash :: numeral 5 = _
    rw [numeral_small rfl, numeral_small rfl]
    rfl
  have hlist : PortList [54, 45, 53] [⟨5, 6⟩] := by
    have helement := Element.range (number_numeral 6) (number_numeral 5)
    rw [show numeral (UInt16.toNat 6) = [54] from numeral_small rfl,
      show numeral (UInt16.toNat 5) = [53] from numeral_small rfl] at helement
    exact PortList.last helement
  obtain ⟨-, -, hparsed, hleft⟩ := portRangesFromStr_list hlist (by simp [Gapped])
  obtain ⟨last, hcycle⟩ := hparsed.cycle [5, 6] hleft
  refine ⟨(Buf.init 0).clear.adata [54, 45, 53], ⟨[⟨6, 5⟩], 1, 0, 6, false⟩, ?_, ?_, ?_⟩
  · rw [portRangesToBuf, undirtify_single]
    change (appendRange _ ⟨6, 5⟩ []).bind _ = _
    rw [@appendRange_eq _ _ [] (Nat.zero_le 1), htext]
    rfl
  · have hfirst : nextCall (portRangesAddRange .zero ⟨6, 5⟩) =
        some (some 6, ⟨[⟨6, 5⟩], 1, 1, 0, false⟩) := by
      rw [nextCall, portRangesNext, undirtify_single]
      rfl
    exact ⟨⟨[⟨6, 5⟩], 1, 0, 0, false⟩, Cycle.item hfirst (Cycle.finish rfl)⟩
  · rintro ⟨other, hother⟩
    rw [Buf.contents_adata, Buf.contents_clear, List.nil_append] at hother
    exact absurd (cycle_unique hother hcycle) (by decide)

end Yans.Net.Ports
