import Yans.Library.Parties
import Yans.Net.Dnstres

/-! The references to the requests: the list has one from the insertion on until
a thread finds the request depleted, and a thread has one for each host that it
resolves. -/
namespace Yans.Net.Dnstres

open Library

variable {n : ℕ}

def holding : Point → Option ℕ
  | .unlock h _ | .resolve h _ | .put h => some h
  | _ => none

def cleaning : Point → Option ℕ
  | .cleanup h _ | .free h _ => some h
  | _ => none

def holders (points : Fin n → Point) (h : ℕ) : ℕ :=
  Parties.count (fun point => holding point = some h) points

/-- A request is there as long as the list or a thread holds it, and the thread
that gives back the last reference cleans it up. -/
structure References (nput nadded : ℕ) (heap : ℕ → Option DnstresHosts) (points : Fin n → Point)
    (done : List ℕ) : Prop where
  counted : ∀ h entry, heap h = some entry →
    entry.refcount = (if nput ≤ h then 1 else 0) + (holders points h : ℤ)
  listed : ∀ h, nput ≤ h → h < nadded → heap h ≠ none
  held : ∀ t h, holding (points t) = some h → h < nadded ∧ heap h ≠ none
  cleaned : ∀ t h, cleaning (points t) = some h →
    heap h ≠ none ∧ h < nput ∧ holders points h = 0
  alone : ∀ t t' h, cleaning (points t) = some h → cleaning (points t') = some h → t = t'
  uncalled : ∀ t h caller, points t = .cleanup h caller → h ∉ done
  called : ∀ t h caller, points t = .free h caller → h ∈ done
  finished : ∀ h ∈ done, h < nput ∧ holders points h = 0
  nodup : done.Nodup

/-! Fields of the requests that stay -/

def Keeps {α : Type} (field : DnstresHosts → α) (heap heap' : ℕ → Option DnstresHosts) : Prop :=
  ∀ h entry', heap' h = some entry' → ∃ entry, heap h = some entry ∧ field entry' = field entry

section

variable {α : Type} {field : DnstresHosts → α} {heap : ℕ → Option DnstresHosts} {h : ℕ}

theorem Keeps.refl : Keeps field heap heap := fun _ entry hentry => ⟨entry, hentry, rfl⟩

theorem Keeps.update {entry entry' : DnstresHosts} (hentry : heap h = some entry)
    (hfield : field entry' = field entry) :
    Keeps field heap (Function.update heap h (some entry')) := by
  intro other found hfound
  by_cases hother : other = h
  · rw [hother, Function.update_self] at hfound
    rw [hother, ← Option.some.inj hfound]
    exact ⟨entry, hentry, hfield⟩
  · rw [Function.update_of_ne hother] at hfound
    exact ⟨found, hfound, rfl⟩

theorem Keeps.erase : Keeps field heap (Function.update heap h none) := by
  intro other found hfound
  by_cases hother : other = h
  · rw [hother, Function.update_self] at hfound
    cases hfound
  · rw [Function.update_of_ne hother] at hfound
    exact ⟨found, hfound, rfl⟩

theorem stored_ne_none {entry : DnstresHosts} {other : ℕ} (hother : heap other ≠ none) :
    Function.update heap h (some entry) other ≠ none := by
  by_cases heq : other = h
  · rw [heq, Function.update_self]
    exact Option.some_ne_none entry
  · rw [Function.update_of_ne heq]
    exact hother

end

section

variable {nput nadded : ℕ} {heap heap' : ℕ → Option DnstresHosts} {points : Fin n → Point}
  {done : List ℕ} {t : Fin n} {point : Point}

theorem holders_update_of_eq (hholding : holding point = holding (points t)) (h : ℕ) :
    holders (Function.update points t point) h = holders points h :=
  Parties.count_update_of_iff (by rw [hholding])

theorem holders_update_of_ne {h : ℕ} (hbefore : holding (points t) ≠ some h)
    (hafter : holding point ≠ some h) :
    holders (Function.update points t point) h = holders points h :=
  Parties.count_update_of_iff (iff_of_false hafter hbefore)

theorem holders_pos {h : ℕ} (hholding : holding (points t) = some h) : 0 < holders points h :=
  Parties.count_pos hholding

theorem References.move (h : References nput nadded heap points done)
    (hholding : holding point = holding (points t)) (hbefore : cleaning (points t) = none)
    (hafter : cleaning point = none) (hrefs : Keeps (·.refcount) heap heap')
    (hstays : ∀ other, heap other ≠ none → heap' other ≠ none) :
    References nput nadded heap' (Function.update points t point) done := by
  have hclean : ∀ other, cleaning (Function.update points t point other) =
      cleaning (points other) := by
    intro other
    by_cases hother : other = t
    · rw [hother, Function.update_self, hafter, hbefore]
    · rw [Function.update_of_ne hother]
  have hsame : ∀ other clean, cleaning clean ≠ none →
      Function.update points t point other = clean → points other = clean := by
    intro other clean hcleaning heq
    by_cases hother : other = t
    · rw [hother, Function.update_self] at heq
      rw [← heq] at hcleaning
      exact absurd hafter hcleaning
    · rw [Function.update_of_ne hother] at heq
      exact heq
  refine ⟨fun other entry' hentry' => ?_, fun other hge hlt => hstays other (h.listed other hge hlt),
    fun thread other hother => ?_, fun thread other hother => ?_, fun left right other hleft hright => ?_,
    fun thread other caller heq => ?_, fun thread other caller heq => ?_, fun other hother => ?_, h.nodup⟩
  · obtain ⟨entry, hentry, hrefcount⟩ := hrefs other entry' hentry'
    rw [holders_update_of_eq hholding]
    exact hrefcount.trans (h.counted other entry hentry)
  · by_cases hthread : thread = t
    · rw [hthread, Function.update_self, hholding] at hother
      exact (h.held t other hother).imp_right (hstays other)
    · rw [Function.update_of_ne hthread] at hother
      exact (h.held thread other hother).imp_right (hstays other)
  · rw [hclean] at hother
    obtain ⟨hthere, hlt, hholders⟩ := h.cleaned thread other hother
    rw [holders_update_of_eq hholding]
    exact ⟨hstays other hthere, hlt, hholders⟩
  · rw [hclean] at hleft hright
    exact h.alone left right other hleft hright
  · exact h.uncalled thread other caller (hsame thread _ (Option.some_ne_none other) heq)
  · exact h.called thread other caller (hsame thread _ (Option.some_ne_none other) heq)
  · rw [holders_update_of_eq hholding]
    exact h.finished other hother

variable {j : ℕ} {entry : DnstresHosts}

section

variable (h : References nput nadded heap points done)

include h

theorem References.referenced (hentry : heap j = some entry) (hrefs : entry.refcount ≠ 0) :
    j ∉ done ∧ ∀ thread, cleaning (points thread) ≠ some j := by
  have hzero : j < nput → holders points j = 0 → entry.refcount = 0 := by
    intro hlt hholders
    rw [h.counted j entry hentry, if_neg (Nat.not_le_of_lt hlt), hholders]
    rfl
  refine ⟨fun hdone => ?_, fun thread hcleaning => ?_⟩
  · obtain ⟨hlt, hholders⟩ := h.finished j hdone
    exact hrefs (hzero hlt hholders)
  · obtain ⟨-, hlt, hholders⟩ := h.cleaned thread j hcleaning
    exact hrefs (hzero hlt hholders)

theorem References.change {nput' : ℕ}
    (hput : nput ≤ nput') (hentry : heap j = some entry)
    (hrefs : entry.refcount ≠ 0) {refcount : ℤ}
    (hself : refcount =
      (if nput' ≤ j then 1 else 0) + (holders (Function.update points t point) j : ℤ))
    (hothers : ∀ other ≠ j, (nput' ≤ other ↔ nput ≤ other) ∧
      holders (Function.update points t point) other = holders points other)
    (hbefore : cleaning (points t) = none)
    (hheld : ∀ other, holding point = some other → other < nadded ∧ heap other ≠ none)
    (hcleaning : ∀ other, cleaning point = some other → other = j ∧ refcount = 0)
    (hfree : ∀ other caller, point ≠ .free other caller) :
    References nput' nadded (Function.update heap j (some { entry with refcount := refcount }))
      (Function.update points t point) done := by
  obtain ⟨hundone, huncleaned⟩ := h.referenced hentry hrefs
  have hzero : refcount = 0 → j < nput' ∧ holders (Function.update points t point) j = 0 := by
    intro hzero
    rw [hzero] at hself
    split at hself <;> omega
  have hcleaned : ∀ thread other, cleaning (Function.update points t point thread) = some other →
      (thread = t ∧ other = j ∧ refcount = 0) ∨
        (thread ≠ t ∧ other ≠ j ∧ cleaning (points thread) = some other) := by
    intro thread other hother
    by_cases hthread : thread = t
    · rw [hthread, Function.update_self] at hother
      exact .inl ⟨hthread, hcleaning other hother⟩
    · rw [Function.update_of_ne hthread] at hother
      refine .inr ⟨hthread, fun heq => huncleaned thread ?_, hother⟩
      rw [hother, heq]
  refine ⟨fun other found hfound => ?_, fun other hge hlt => stored_ne_none ?_,
    fun thread other hother => ?_, fun thread other hother => ?_,
    fun left right other hleft hright => ?_, fun thread other caller heq => ?_,
    fun thread other caller heq => ?_, fun other hother => ?_, h.nodup⟩
  · by_cases hother : other = j
    · rw [hother, Function.update_self] at hfound
      rw [hother, ← Option.some.inj hfound]
      exact hself
    · rw [Function.update_of_ne hother] at hfound
      obtain ⟨hiff, hholders⟩ := hothers other hother
      rw [hholders, h.counted other found hfound]
      simp only [hiff]
  · exact h.listed other (hput.trans hge) hlt
  · by_cases hthread : thread = t
    · rw [hthread, Function.update_self] at hother
      exact (hheld other hother).imp_right stored_ne_none
    · rw [Function.update_of_ne hthread] at hother
      exact (h.held thread other hother).imp_right stored_ne_none
  · obtain ⟨-, rfl, hnone⟩ | ⟨-, hne, hold⟩ := hcleaned thread other hother
    · refine ⟨?_, hzero hnone⟩
      rw [Function.update_self]
      exact Option.some_ne_none _
    · obtain ⟨hthere, hlt, hholders⟩ := h.cleaned thread other hold
      refine ⟨stored_ne_none hthere, hlt.trans_le hput, ?_⟩
      rw [(hothers other hne).2, hholders]
  · obtain ⟨rfl, rfl, -⟩ | ⟨hl, hne, hold⟩ := hcleaned left other hleft
    · obtain ⟨rfl, -⟩ | ⟨-, hne, -⟩ := hcleaned right other hright
      · rfl
      · exact absurd rfl hne
    · obtain ⟨-, rfl, -⟩ | ⟨-, -, hright⟩ := hcleaned right other hright
      · exact absurd rfl hne
      · exact h.alone left right other hold hright
  · by_cases hthread : thread = t
    · rw [hthread, Function.update_self] at heq
      have hsame := hcleaning other (by rw [heq]; rfl)
      rw [hsame.1]
      exact hundone
    · rw [Function.update_of_ne hthread] at heq
      exact h.uncalled thread other caller heq
  · by_cases hthread : thread = t
    · rw [hthread, Function.update_self] at heq
      exact absurd heq (hfree other caller)
    · rw [Function.update_of_ne hthread] at heq
      exact h.called thread other caller heq
  · obtain ⟨hlt, hholders⟩ := h.finished other hother
    have hne : other ≠ j := by
      rintro rfl
      exact hundone hother
    rw [(hothers other hne).2]
    exact ⟨hlt.trans_le hput, hholders⟩

theorem References.get (hentry : heap j = some entry)
    (hge : nput ≤ j) (hlt : j < nadded)
    (hholding : holding (points t) = none) (hcleaning : cleaning (points t) = none) (host : Host) :
    References nput nadded
      (Function.update heap j (some { entry with refcount := entry.refcount + 1 }))
      (Function.update points t (.unlock j host)) done := by
  have hcounted := h.counted j entry hentry
  rw [if_pos hge] at hcounted
  have hholders : holders (Function.update points t (.unlock j host)) j = holders points j + 1 :=
    Parties.count_update_enter (by rw [hholding]; exact nofun) rfl
  refine h.change le_rfl hentry (by omega) ?_ (fun other hne => ⟨Iff.rfl, ?_⟩) hcleaning ?_ nofun nofun
  · rw [if_pos hge, hholders]
    omega
  · refine holders_update_of_ne ?_ fun heq => hne (Option.some.inj heq).symm
    rw [hholding]
    exact nofun
  · intro other hother
    rw [← Option.some.inj hother, hentry]
    exact ⟨hlt, Option.some_ne_none entry⟩

end

/-- The point behind `dnstres_hosts_put`. -/
def behindPut (refcount : ℤ) (j : ℕ) (caller : Caller) : Point :=
  if refcount = 1 then .cleanup j caller else caller.back

theorem holding_behindPut (refcount : ℤ) (j : ℕ) (caller : Caller) :
    holding (behindPut refcount j caller) = none := by
  unfold behindPut
  split
  · rfl
  · cases caller <;> rfl

variable {caller : Caller}

theorem cleaning_behindPut {refcount : ℤ} {other : ℕ}
    (h : cleaning (behindPut refcount j caller) = some other) : other = j ∧ refcount = 1 := by
  unfold behindPut at h
  split at h
  · rename_i hone
    exact ⟨(Option.some.inj h).symm, hone⟩
  · cases caller <;> cases h

theorem behindPut_ne_free (refcount : ℤ) (j : ℕ) (caller : Caller) (other : ℕ) (caller' : Caller) :
    behindPut refcount j caller ≠ .free other caller' := by
  unfold behindPut
  split
  · exact nofun
  · cases caller <;> exact nofun

section

variable (h : References nput nadded heap points done)

include h

theorem References.listPut (hentry : heap nput = some entry) (hholding : holding (points t) = none)
    (hcleaning : cleaning (points t) = none) (caller : Caller) :
    References (nput + 1) nadded
      (Function.update heap nput (some { entry with refcount := entry.refcount - 1 }))
      (Function.update points t (behindPut entry.refcount nput caller)) done := by
  have hcounted := h.counted nput entry hentry
  rw [if_pos le_rfl] at hcounted
  have hholders : ∀ other, holders (Function.update points t
      (behindPut entry.refcount nput caller)) other = holders points other :=
    holders_update_of_eq ((holding_behindPut ..).trans hholding.symm)
  refine h.change (Nat.le_succ nput) hentry (by omega) ?_ (fun other hne => ⟨?_, hholders other⟩)
    hcleaning ?_ (fun other hother => ?_) (behindPut_ne_free _ _ _)
  · rw [if_neg (Nat.not_succ_le_self nput), hholders]
    omega
  · omega
  · intro other hother
    rw [holding_behindPut] at hother
    cases hother
  · obtain ⟨heq, hone⟩ := cleaning_behindPut hother
    exact ⟨heq, by omega⟩

theorem References.put (hentry : heap j = some entry)
    (hholding : holding (points t) = some j)
    (hcleaning : cleaning (points t) = none) (caller : Caller) :
    References nput nadded
      (Function.update heap j (some { entry with refcount := entry.refcount - 1 }))
      (Function.update points t (behindPut entry.refcount j caller)) done := by
  have hcounted := h.counted j entry hentry
  have hholders : holders (Function.update points t (behindPut entry.refcount j caller)) j + 1 =
      holders points j :=
    Parties.count_update_leave hholding (by rw [holding_behindPut]; exact nofun)
  have hcount : entry.refcount - 1 = (if nput ≤ j then 1 else 0) +
      (holders (Function.update points t (behindPut entry.refcount j caller)) j : ℤ) := by
    by_cases hle : nput ≤ j
    · rw [if_pos hle] at hcounted ⊢
      omega
    · rw [if_neg hle] at hcounted ⊢
      omega
  have hrefs : entry.refcount ≠ 0 := by
    split at hcounted <;> omega
  refine h.change le_rfl hentry hrefs hcount (fun other hne => ⟨Iff.rfl, ?_⟩) hcleaning ?_
    (fun other hother => ?_) (behindPut_ne_free _ _ _)
  · refine holders_update_of_ne ?_ ?_
    · rw [hholding]
      exact fun heq => hne (Option.some.inj heq).symm
    · rw [holding_behindPut]
      exact nofun
  · intro other hother
    rw [holding_behindPut] at hother
    cases hother
  · obtain ⟨heq, hone⟩ := cleaning_behindPut hother
    exact ⟨heq, by omega⟩

theorem References.called_done (hpoint : points t = .cleanup j caller) :
    References nput nadded heap (Function.update points t (.free j caller)) (done ++ [j]) := by
  have hclean : ∀ thread, cleaning (Function.update points t (.free j caller) thread) =
      cleaning (points thread) := by
    intro thread
    by_cases hthread : thread = t
    · rw [hthread, Function.update_self, hpoint]
      rfl
    · rw [Function.update_of_ne hthread]
  have hholders : ∀ other, holders (Function.update points t (.free j caller)) other =
      holders points other := holders_update_of_eq (by rw [hpoint]; rfl)
  have hheld : ∀ thread, holding (Function.update points t (.free j caller) thread) =
      holding (points thread) := by
    intro thread
    by_cases hthread : thread = t
    · rw [hthread, Function.update_self, hpoint]
      rfl
    · rw [Function.update_of_ne hthread]
  have hj : cleaning (points t) = some j := by rw [hpoint]; rfl
  refine ⟨fun other entry hentry => ?_, h.listed, fun thread other hother => ?_,
    fun thread other hother => ?_, fun left right other hleft hright => ?_,
    fun thread other caller' heq => ?_, fun thread other caller' heq => ?_,
    fun other hother => ?_, ?_⟩
  · rw [hholders]
    exact h.counted other entry hentry
  · rw [hheld] at hother
    exact h.held thread other hother
  · rw [hclean] at hother
    rw [hholders]
    exact h.cleaned thread other hother
  · rw [hclean] at hleft hright
    exact h.alone left right other hleft hright
  · have hother : cleaning (points thread) = some other := by
      rw [← hclean, heq]
      rfl
    have hthread : thread ≠ t := by
      rintro rfl
      rw [Function.update_self] at heq
      cases heq
    rw [Function.update_of_ne hthread] at heq
    rw [List.mem_append, List.mem_singleton, not_or]
    refine ⟨h.uncalled thread other caller' heq, ?_⟩
    rintro rfl
    exact hthread (h.alone thread t other hother hj)
  · by_cases hthread : thread = t
    · rw [hthread, Function.update_self] at heq
      injection heq with heq
      rw [← heq]
      exact List.mem_append_right _ (List.mem_singleton_self j)
    · rw [Function.update_of_ne hthread] at heq
      exact List.mem_append_left _ (h.called thread other caller' heq)
  · rw [hholders]
    obtain hother | hother := List.mem_append.mp hother
    · exact h.finished other hother
    · rw [List.mem_singleton.mp hother]
      exact (h.cleaned t j hj).2
  · rw [List.nodup_append_comm]
    exact List.nodup_cons.mpr ⟨h.uncalled t j caller hpoint, h.nodup⟩

theorem References.freed (hpoint : points t = .free j caller) :
    References nput nadded (Function.update heap j none) (Function.update points t caller.back)
      done := by
  have hj : cleaning (points t) = some j := by rw [hpoint]; rfl
  obtain ⟨-, hlt, hzero⟩ := h.cleaned t j hj
  have hholders : ∀ other, holders (Function.update points t caller.back) other =
      holders points other := by
    refine holders_update_of_eq ?_
    rw [hpoint]
    cases caller <;> rfl
  have hclean : ∀ thread other, cleaning (Function.update points t caller.back thread) = some other →
      thread ≠ t ∧ other ≠ j ∧ cleaning (points thread) = some other := by
    intro thread other hother
    have hthread : thread ≠ t := by
      rintro rfl
      rw [Function.update_self] at hother
      cases caller <;> cases hother
    rw [Function.update_of_ne hthread] at hother
    refine ⟨hthread, ?_, hother⟩
    rintro rfl
    exact hthread (h.alone thread t other hother hj)
  have hthere : ∀ other ≠ j, heap other ≠ none → Function.update heap j none other ≠ none := by
    intro other hne hother
    rw [Function.update_of_ne hne]
    exact hother
  refine ⟨fun other entry hentry => ?_, fun other hge hother => ?_, fun thread other hother => ?_,
    fun thread other hother => ?_, fun left right other hleft hright => ?_,
    fun thread other caller' heq => ?_, fun thread other caller' heq => ?_,
    fun other hother => ?_, h.nodup⟩
  · obtain ⟨entry', hentry', heq⟩ := @Keeps.erase _ id heap j other entry hentry
    rw [hholders, show entry = entry' from heq]
    exact h.counted other entry' hentry'
  · exact hthere other (by omega) (h.listed other hge hother)
  · have hthread : thread ≠ t := by
      rintro rfl
      rw [Function.update_self] at hother
      cases caller <;> cases hother
    rw [Function.update_of_ne hthread] at hother
    refine (h.held thread other hother).imp_right (hthere other ?_)
    rintro rfl
    exact absurd hzero (holders_pos hother).ne'
  · obtain ⟨-, hne, hother⟩ := hclean thread other hother
    rw [hholders]
    exact (h.cleaned thread other hother).imp_left (hthere other hne)
  · exact h.alone left right other (hclean left other hleft).2.2 (hclean right other hright).2.2
  · obtain ⟨hthread, -, -⟩ := hclean thread other (by rw [heq]; rfl)
    rw [Function.update_of_ne hthread] at heq
    exact h.uncalled thread other caller' heq
  · obtain ⟨hthread, -, -⟩ := hclean thread other (by rw [heq]; rfl)
    rw [Function.update_of_ne hthread] at heq
    exact h.called thread other caller' heq
  · rw [hholders]
    exact h.finished other hother

theorem References.added (hput : nput ≤ nadded)
    (hrefs : Keeps (·.refcount) heap heap')
    (hstays : ∀ other, heap other ≠ none → heap' other ≠ none) (hentry : entry.refcount = 1) :
    References nput (nadded + 1) (Function.update heap' nadded (some entry)) points done := by
  have hnone : holders points nadded = 0 := by
    refine Parties.count_eq_zero fun thread hthread => ?_
    exact absurd (h.held thread nadded hthread).1 (lt_irrefl nadded)
  refine ⟨fun other found hfound => ?_, fun other hge hlt => ?_, fun thread other hother => ?_,
    fun thread other hother => ?_, h.alone, h.uncalled, h.called, h.finished, h.nodup⟩
  · by_cases hother : other = nadded
    · rw [hother, Function.update_self] at hfound
      rw [hother, ← Option.some.inj hfound, hentry, if_pos hput, hnone]
      rfl
    · rw [Function.update_of_ne hother] at hfound
      obtain ⟨before, hbefore, heq⟩ := hrefs other found hfound
      exact heq.trans (h.counted other before hbefore)
  · by_cases hother : other = nadded
    · rw [hother, Function.update_self]
      exact Option.some_ne_none entry
    · exact stored_ne_none (hstays other (h.listed other hge (by omega)))
  · obtain ⟨hlt, hthere⟩ := h.held thread other hother
    exact ⟨Nat.lt_succ_of_lt hlt, stored_ne_none (hstays other hthere)⟩
  · obtain ⟨hthere, hrest⟩ := h.cleaned thread other hother
    exact ⟨stored_ne_none (hstays other hthere), hrest⟩

end

end

end Yans.Net.Dnstres
