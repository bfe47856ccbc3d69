import Yans.Net.Dnstres

/-! The cursor of a request hands out the hosts of its text, each once and from
the left to the right. -/
namespace Yans.Net.Dnstres

open Library.Memory Library.Strings

theorem byteAt_drop (mem : Bytes) (k i : ℕ) : byteAt (mem.drop k) i = byteAt mem (k + i) := by
  unfold byteAt
  rw [List.getElem?_drop]

theorem span_spec {p : UInt8 → Bool} (hzero : p 0 = false) (mem : Bytes) :
    (∀ i < (mem.takeWhile p).length, p (byteAt mem i) = true) ∧
      p (byteAt mem (mem.takeWhile p).length) = false := by
  induction mem with
  | nil => exact ⟨fun i hi => absurd hi (Nat.not_lt_zero i), hzero⟩
  | cons ch mem ih =>
    cases hch : p ch with
    | false =>
      rw [List.takeWhile_cons_of_neg (by rw [hch]; exact Bool.false_ne_true)]
      exact ⟨fun i hi => absurd hi (Nat.not_lt_zero i), hch⟩
    | true =>
      rw [List.takeWhile_cons_of_pos hch, List.length_cons]
      refine ⟨fun i hi => ?_, ih.2⟩
      cases i with
      | zero => exact hch
      | succ i => exact ih.1 i (Nat.lt_of_succ_lt_succ hi)

theorem strspn_spec (mem : Bytes) :
    (∀ i < strspn mem, byteAt mem i ∈ delims) ∧ byteAt mem (strspn mem) ∉ delims := by
  have hspan := @span_spec (fun ch => decide (ch ∈ delims)) (by decide) mem
  exact ⟨fun i hi => of_decide_eq_true (hspan.1 i hi), of_decide_eq_false hspan.2⟩

theorem strcspn_spec (mem : Bytes) :
    (∀ i < strcspn mem, byteAt mem i ≠ 0 ∧ byteAt mem i ∉ delims) ∧
      (byteAt mem (strcspn mem) ≠ 0 → byteAt mem (strcspn mem) ∈ delims) := by
  have hspan := @span_spec (fun ch => decide (ch ≠ 0 ∧ ch ∉ delims)) (by decide) mem
  refine ⟨fun i hi => of_decide_eq_true (hspan.1 i hi), fun hne => ?_⟩
  by_contra hnot
  exact of_decide_eq_false hspan.2 ⟨hne, hnot⟩

theorem byteAt_eq_zero_iff {text : Bytes} (htext : ∀ ch ∈ text, ch ≠ 0) (i : ℕ) :
    byteAt text i = 0 ↔ text.length ≤ i := by
  unfold byteAt
  by_cases hi : i < text.length
  · rw [List.getElem?_eq_getElem hi, Option.getD_some]
    exact iff_of_false (htext _ (List.getElem_mem hi)) (Nat.not_le_of_lt hi)
  · rw [List.getElem?_eq_none (Nat.le_of_not_lt hi)]
    exact iff_of_true rfl (Nat.le_of_not_lt hi)

variable {host : Host}

theorem IsHost.lt {text : Bytes} (h : IsHost text host) : host.1 < text.length := by
  have hpos := h.pos
  have hle := h.le
  omega

theorem IsHost.first {text : Bytes} (h : IsHost text host) :
    byteAt text host.1 ∉ delims := by
  have hpos := h.pos
  exact h.within host.1 le_rfl (by omega)

theorem IsHost.eq_of_within {text : Bytes} {other : Host} (h : IsHost text host)
    (hother : IsHost text other) (hge : host.1 ≤ other.1) (hlt : other.1 < host.1 + host.2) :
    other = host := by
  have hstart : other.1 = host.1 := by
    by_contra hne
    obtain hzero | hdelim := hother.before
    · omega
    · exact h.within (other.1 - 1) (by omega) (by omega) hdelim
  have hle : ∀ {a b : Host}, IsHost text a → IsHost text b → a.1 = b.1 → b.2 ≤ a.2 := by
    intro a b ha hb hsame
    by_contra hshort
    obtain hend | hdelim := ha.after
    · have hle := hb.le
      omega
    · exact hb.within (a.1 + a.2) (by omega) (by omega) hdelim
  exact Prod.ext hstart (le_antisymm (hle h hother hstart.symm) (hle hother h hstart))

structure Cursor (text : Bytes) (entry : DnstresHosts) : Prop where
  le : entry.nextHost ≤ text.length
  rest : ∀ i, entry.nextHost ≤ i → byteAt entry.hosts i = byteAt text i
  before : entry.nextHost = 0 ∨ entry.nextHost = text.length ∨
    byteAt text (entry.nextHost - 1) ∈ delims

theorem dnstresHostsNew_cursor (hosts : Bytes) :
    Cursor (cstring hosts) (dnstresHostsNew hosts) := by
  refine ⟨Nat.zero_le _, fun i _ => ?_, .inl rfl⟩
  exact byteAt_append_zeros (cstring hosts) 1 i

structure Handed (text : Bytes) (entry : DnstresHosts) (host : Host) (entry' : DnstresHosts) :
    Prop where
  isHost : IsHost text host
  from_cursor : entry.nextHost ≤ host.1
  before_cursor : host.1 < entry'.nextHost
  only : ∀ other, IsHost text other → entry.nextHost ≤ other.1 → other.1 < entry'.nextHost →
    other = host
  cursor : Cursor text entry'
  next : entry'.next = entry.next
  refcount : entry'.refcount = entry.refcount

/-- Where `dnstres_hosts_next` gets to behind the delimiters. -/
def curr (entry : DnstresHosts) : ℕ :=
  entry.nextHost + strspn (entry.hosts.drop entry.nextHost)

theorem dnstresHostsNext_eq (entry : DnstresHosts) :
    dnstresHostsNext entry =
      let off := strcspn (entry.hosts.drop (curr entry))
      if byteAt entry.hosts (curr entry) = 0 then none
      else if byteAt entry.hosts (curr entry + off) ≠ 0 then
        some ((curr entry, off),
          { entry with
            hosts := write entry.hosts (curr entry + off) [0]
            nextHost := curr entry + (off + 1) })
      else some ((curr entry, off), { entry with nextHost := curr entry + off }) := rfl

section

variable {text : Bytes} {entry : DnstresHosts} (h : Cursor text entry)

include h

theorem Cursor.skipped {i : ℕ} (hge : entry.nextHost ≤ i) (hlt : i < curr entry) :
    byteAt text i ∈ delims := by
  obtain ⟨d, rfl⟩ := Nat.exists_eq_add_of_le hge
  have hspan := (strspn_spec (entry.hosts.drop entry.nextHost)).1 d (by unfold curr at hlt; omega)
  rw [byteAt_drop, h.rest _ hge] at hspan
  exact hspan

theorem Cursor.curr_not_delim : byteAt text (curr entry) ∉ delims := by
  have hspan := (strspn_spec (entry.hosts.drop entry.nextHost)).2
  rw [byteAt_drop, h.rest _ (Nat.le_add_right _ _)] at hspan
  exact hspan

theorem Cursor.curr_le (hhost : IsHost text host) (hge : entry.nextHost ≤ host.1) :
    curr entry ≤ host.1 := by
  by_contra hlt
  exact hhost.first (h.skipped hge (Nat.lt_of_not_le hlt))

theorem Cursor.named {i : ℕ} (hge : curr entry ≤ i)
    (hlt : i < curr entry + strcspn (entry.hosts.drop (curr entry))) :
    byteAt text i ≠ 0 ∧ byteAt text i ∉ delims := by
  obtain ⟨d, rfl⟩ := Nat.exists_eq_add_of_le hge
  have hspan := (strcspn_spec (entry.hosts.drop (curr entry))).1 d (by omega)
  rw [byteAt_drop, h.rest _ (le_trans (Nat.le_add_right _ _) hge)] at hspan
  exact hspan

theorem dnstresHostsNext_none (htext : ∀ ch ∈ text, ch ≠ 0)
    (hnext : dnstresHostsNext entry = none) :
    ∀ host, IsHost text host → host.1 < entry.nextHost := by
  intro host hhost
  by_contra hge
  have hle := h.curr_le hhost (Nat.le_of_not_lt hge)
  have hzero : byteAt entry.hosts (curr entry) = 0 := by
    by_contra hne
    rw [dnstresHostsNext_eq, if_neg hne] at hnext
    split at hnext <;> cases hnext
  have hk : entry.nextHost ≤ curr entry := Nat.le_add_right _ _
  rw [h.rest _ hk, byteAt_eq_zero_iff htext] at hzero
  have hlt := hhost.lt
  omega

theorem dnstresHostsNext_some (htext : ∀ ch ∈ text, ch ≠ 0)
    {entry' : DnstresHosts} (hnext : dnstresHostsNext entry = some (host, entry')) :
    Handed text entry host entry' := by
  have hk : entry.nextHost ≤ curr entry := Nat.le_add_right _ _
  have hne : byteAt entry.hosts (curr entry) ≠ 0 := by
    intro hzero
    rw [dnstresHostsNext_eq, if_pos hzero] at hnext
    cases hnext
  have hlen : curr entry < text.length := by
    rw [h.rest _ hk, Ne, byteAt_eq_zero_iff htext] at hne
    omega
  generalize hoff : strcspn (entry.hosts.drop (curr entry)) = off at *
  have hnamed : ∀ i, curr entry ≤ i → i < curr entry + off →
      byteAt text i ≠ 0 ∧ byteAt text i ∉ delims := by
    intro i hge hlt
    exact h.named hge (by rw [hoff]; exact hlt)
  have hle : curr entry + off ≤ text.length := by
    by_contra hlong
    exact (hnamed text.length (by omega) (by omega)).1 ((byteAt_eq_zero_iff htext _).mpr le_rfl)
  have hstop : byteAt text (curr entry + off) ≠ 0 → byteAt text (curr entry + off) ∈ delims := by
    have hspan := (strcspn_spec (entry.hosts.drop (curr entry))).2
    rw [hoff, byteAt_drop, h.rest _ (by omega)] at hspan
    exact hspan
  have hpos : 0 < off := by
    by_contra hzero
    obtain rfl : off = 0 := by omega
    refine h.curr_not_delim (hstop ?_)
    rw [Ne, byteAt_eq_zero_iff htext]
    omega
  have hhost : IsHost text (curr entry, off) := by
    refine ⟨hpos, hle, fun i hge hlt => (hnamed i hge hlt).2, ?_, ?_⟩
    · by_cases hskip : curr entry = entry.nextHost
      · change curr entry = 0 ∨ byteAt text (curr entry - 1) ∈ delims
        rw [hskip]
        obtain hzero | hend | hdelim := h.before
        · exact .inl hzero
        · omega
        · exact .inr hdelim
      · exact .inr (h.skipped (by dsimp only; omega) (by dsimp only; omega))
    · by_cases hend : curr entry + off = text.length
      · exact .inl hend
      · refine .inr (hstop ?_)
        rw [Ne, byteAt_eq_zero_iff htext]
        omega
  have honly : ∀ other, IsHost text other → entry.nextHost ≤ other.1 →
      other.1 ≤ curr entry + off → other = (curr entry, off) := by
    intro other hother hge hlt
    refine hhost.eq_of_within hother (h.curr_le hother hge) (lt_of_le_of_ne hlt fun hend => ?_)
    refine hother.first ?_
    rw [hend]
    refine hstop ?_
    rw [Ne, byteAt_eq_zero_iff htext, ← hend]
    exact Nat.not_le_of_lt hother.lt
  rw [dnstresHostsNext_eq, if_neg hne] at hnext
  rw [hoff] at hnext
  split at hnext
  · rename_i hdelim
    cases hnext
    have hinside : curr entry + off < entry.hosts.length := by
      by_contra hend
      refine hdelim ?_
      unfold byteAt
      rw [List.getElem?_eq_none (Nat.le_of_not_lt hend)]
      rfl
    rw [h.rest _ (by omega)] at hdelim
    have hshort : curr entry + off < text.length := by
      rw [Ne, byteAt_eq_zero_iff htext] at hdelim
      omega
    refine ⟨hhost, hk, ?_, fun other hother hge hlt => honly other hother hge ?_,
      ⟨?_, fun i hi => ?_, .inr (.inr (hstop hdelim))⟩, rfl, rfl⟩
    · change curr entry < curr entry + (off + 1)
      omega
    · exact Nat.le_of_lt_succ hlt
    · exact hshort
    · change curr entry + (off + 1) ≤ i at hi
      rw [byteAt_write (by rw [List.length_singleton]; omega),
        if_neg (by rw [List.length_singleton]; omega)]
      exact h.rest i (by omega)
  · rename_i hend
    cases hnext
    rw [Classical.not_not, h.rest _ (by omega), byteAt_eq_zero_iff htext] at hend
    have hend : curr entry + off = text.length := le_antisymm hle hend
    refine ⟨hhost, hk, ?_, fun other hother hge hlt => honly other hother hge hlt.le,
      ⟨hle, fun i hi => ?_, .inr (.inl hend)⟩, rfl, rfl⟩
    · change curr entry < curr entry + off
      omega
    · change curr entry + off ≤ i at hi
      exact h.rest i (by omega)

end

end Yans.Net.Dnstres
