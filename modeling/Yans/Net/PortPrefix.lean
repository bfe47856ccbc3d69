import Yans.Net.PortText

/-! Where `port_ranges_from_str` fails: behind the longest part of the text that
could have become a list of ports. -/
namespace Yans.Net.Ports

open Library Library.Memory Library.Decimal Util

def Extendable (text : Bytes) : Prop := ∃ rest list, PortList (text ++ rest) list

structure LongestExtendable (s : Bytes) (off : ℕ) : Prop where
  le : off ≤ s.length
  extendable : Extendable (s.take off)
  longest : ∀ n ≤ s.length, Extendable (s.take n) → n ≤ off

def Unread (p : FromStr) : Prop := p.s = .parseRhs → p.hasRhs = false → p.num = 0

variable {p : FromStr}

theorem unread_of_ne (h : p.s ≠ .parseRhs) : Unread p := fun hs => absurd hs h

theorem unread_parseLhs {p' : FromStr} {c : UInt8} (hs : p.s = .parseLhs)
    (h : parseLhs p c = some p') : Unread p' := by
  unfold parseLhs at h
  split at h
  · dsimp only at h
    split at h
    · split at h
      · cases h
      · cases h
        exact fun _ _ => rfl
    · cases h
      exact unread_of_ne nofun
  · split at h
    · cases h
    · dsimp only at h
      split at h
      · cases h
      · cases h
        exact unread_of_ne fun hrhs => by rw [hs] at hrhs; cases hrhs

theorem unread_parseRhs {p' : FromStr} {c : UInt8} (h : parseRhs p c = some p') :
    Unread p' := by
  unfold parseRhs at h
  split at h
  · split at h
    · cases h
    · cases h
      exact unread_of_ne nofun
  · split at h
    · cases h
    · dsimp only at h
      split at h
      · cases h
      · cases h
        exact fun _ hrhs => nomatch hrhs

theorem unread_fromStrStep {p' : FromStr} {c : UInt8} (h : fromStrStep p c = some p') :
    Unread p' := by
  unfold fromStrStep at h
  split at h
  · rename_i hs
    split at h
    · cases h
      exact unread_of_ne fun hrhs => by rw [hs] at hrhs; cases hrhs
    · exact unread_parseLhs rfl h
  · rename_i hs
    exact unread_parseLhs hs h
  · exact unread_parseRhs h

theorem exists_remaining (hlive : Live p) (hunread : Unread p) :
    ∃ rest list, Remaining p rest list := by
  unfold Live at hlive
  cases hs : p.s with
  | skipSep =>
    refine ⟨[], [], ?_⟩
    simp only [Remaining, hs]
    exact .nil
  | parseLhs =>
    simp only [hs] at hlive
    refine ⟨[], [between p.num p.num], ?_⟩
    simp only [Remaining, hs]
    exact numberThen_nil.mpr ⟨hlive.1, hlive.2.2, afterNumber_nil.mpr rfl⟩
  | parseRhs =>
    simp only [hs] at hlive
    cases hrhs : p.hasRhs with
    | true =>
      refine ⟨[], [between p.range.start.toNat p.num], ?_⟩
      simp only [Remaining, hs]
      exact numberThen_nil.mpr ⟨hrhs, hlive, endsWith_nil.mpr rfl⟩
    | false =>
      refine ⟨[48], [between p.range.start.toNat 0], ?_⟩
      have hnum := hunread hs hrhs
      simp only [Remaining, hs, hnum]
      refine ⟨[48], [], rfl, by decide, .inr (List.cons_ne_nil _ _), by decide, ?_⟩
      exact endsWith_nil.mpr rfl

theorem fromStrLoop_follows (s : Bytes) : ∀ {p : FromStr} (off : ℕ), Live p → Unread p →
    match fromStrLoop p off s with
    | .error e => ∃ k < s.length, e = off + k ∧
      (∃ rest list, Remaining p (s.take k ++ rest) list) ∧
      ∀ rest list, ¬Remaining p (s.take (k + 1) ++ rest) list
    | .ok _ => ∃ rest list, Remaining p (s ++ rest) list := by
  induction s with
  | nil => exact fun off hlive hunread => exists_remaining hlive hunread
  | cons c s ih =>
    intro p off hlive hunread
    have hreads := @fromStrStep_reads p c hlive
    unfold fromStrLoop
    cases hstep : fromStrStep p c with
    | none =>
      rw [hstep] at hreads
      exact ⟨0, Nat.succ_pos _, rfl, exists_remaining hlive hunread, fun rest => hreads rest⟩
    | some p' =>
      rw [hstep] at hreads
      obtain ⟨hlive', new, -, hmore⟩ := hreads
      have hloop := @ih p' (off + 1) hlive' (unread_fromStrStep hstep)
      have hforth : ∀ {text : Bytes}, (∃ rest list, Remaining p' (text ++ rest) list) →
          ∃ rest list, Remaining p (c :: text ++ rest) list := by
        rintro text ⟨rest, list, hlist⟩
        exact ⟨rest, new ++ list, (hmore _ _).mpr ⟨list, rfl, hlist⟩⟩
      dsimp only
      cases hrest : fromStrLoop p' (off + 1) s with
      | error e =>
        rw [hrest] at hloop
        obtain ⟨k, hk, he, hread, hstop⟩ := hloop
        refine ⟨k + 1, Nat.succ_lt_succ hk, by omega, hforth hread, ?_⟩
        intro rest list h
        obtain ⟨more, -, hp'⟩ := (hmore _ _).mp h
        exact hstop rest more hp'
      | ok p'' =>
        rw [hrest] at hloop
        exact hforth hloop

theorem longestExtendable_of_stop {s : Bytes} {k : ℕ} (hk : k < s.length)
    (hread : Extendable (s.take k)) (hstop : ¬Extendable (s.take (k + 1))) :
    LongestExtendable s k where
  le := hk.le
  extendable := hread
  longest := by
    rintro n - ⟨rest, list, hlist⟩
    by_contra hlong
    apply hstop
    obtain ⟨more, hmore⟩ := List.take_prefix_take_left (l := s) (show k + 1 ≤ n by omega)
    exact ⟨more ++ rest, list, by rwa [← List.append_assoc, hmore]⟩

theorem portRangesFromStr_fail {s : Bytes} {off : ℕ} (h : (portRangesFromStr s).1 = some off) :
    LongestExtendable s off := by
  unfold portRangesFromStr at h
  by_cases hs : s = []
  · rw [if_pos hs] at h
    cases h
  · rw [if_neg hs] at h
    have hloop := @fromStrLoop_follows s
      ⟨.skipSep, 0, false, false, ⟨0, 0⟩, Buf.init (256 * 4)⟩ 0 trivial (unread_of_ne nofun)
    cases hrun : fromStrLoop ⟨.skipSep, 0, false, false, ⟨0, 0⟩, Buf.init (256 * 4)⟩ 0 s with
    | error e =>
      rw [hrun] at h hloop
      obtain ⟨k, hk, he, hread, hstop⟩ := hloop
      have hoff : off = k := by
        have he' : e = off := Option.some.inj h
        omega
      rw [hoff]
      exact longestExtendable_of_stop hk hread fun ⟨rest, list, hlist⟩ => hstop rest list hlist
    | ok p =>
      rw [hrun] at h hloop
      dsimp only at h
      split at h
      · have hoff : s.length = off := Option.some.inj h
        rw [← hoff]
        refine ⟨le_refl _, ?_, fun n hn _ => hn⟩
        rw [List.take_length]
        exact hloop
      · cases h

/-- `port_ranges_from_str` takes the lists of ports and stores their ranges; for
any other text it reports how much of it a list could begin with. -/
theorem portRangesFromStr_exact (s : Bytes) :
    (∀ list, (portRangesFromStr s).1 = none ∧ (portRangesFromStr s).2.entries = list ↔
      PortList s list) ∧
    ∀ off, (portRangesFromStr s).1 = some off → LongestExtendable s off := by
  refine ⟨fun list => ?_, fun off h => portRangesFromStr_fail h⟩
  have hspec := portRangesFromStr_spec s
  generalize portRangesFromStr s = result at hspec
  obtain ⟨fail, rs⟩ := result
  cases fail with
  | none =>
    obtain ⟨-, -, -, -, hlist⟩ := hspec
    rw [hlist]
    exact ⟨fun h => h.2.symm, fun h => ⟨rfl, h.symm⟩⟩
  | some off => exact iff_of_false (fun h => nomatch h.1) (hspec.2 list)

end Yans.Net.Ports
