import Yans.Net.DnstresHosts
import Yans.Net.DnstresReferences

/-! What is kept over all interleavings: who is in the critical section, what the
list is, and which hosts have been handed out. -/
namespace Yans.Net.Dnstres

open Library.Memory Library.Strings

variable {n : ℕ}

def Inside : Point → Prop
  | .again | .next | .depleted | .listPut _ | .unlink _ | .get _ | .unlock _ _ | .wait => True
  | .cleanup _ (.getHost _) | .free _ (.getHost _) => True
  | _ => False

/-- The host that a thread is going to resolve, with `served` at the front of the
list. -/
def resolving (served : ℕ) : Point → Option (ℕ × Host)
  | .get host => some (served, host)
  | .unlock h host | .resolve h host => some (h, host)
  | _ => none

/-- The request behind the request `h` in the list. -/
def successor (nadded h : ℕ) : Option ℕ := if h + 1 < nadded then some (h + 1) else none

def Full (texts : ℕ → Bytes) (taken : List (ℕ × Host)) (h : ℕ) : Prop :=
  ∀ host, IsHost (texts h) host → (h, host) ∈ taken

def At (served nput nadded : ℕ) (full : Prop) : Point → Prop
  | .again | .unlock _ _ | .wait => nput = served
  | .next | .get _ => nput = served ∧ served < nadded
  | .depleted => nput = served ∧ served < nadded ∧ full
  | .listPut after => nput = served ∧ served < nadded ∧ full ∧ after = successor nadded served
  | .unlink after | .cleanup _ (.getHost after) | .free _ (.getHost after) =>
    nput = served + 1 ∧ served < nadded ∧ after = successor nadded served
  | _ => True

structure Exclusion (mutex : Option (Fin n)) (points : Fin n → Point) (served nput nadded : ℕ)
    (full : Prop) : Prop where
  inside : ∀ t, Inside (points t) ↔ mutex = some t
  idle : mutex = none → nput = served
  at' : ∀ t, At served nput nadded full (points t)

/-- The list holds the requests from the first one that has not been unlinked to
the last one that has been added. -/
structure Listing (first last : Option ℕ) (unlinked : List ℕ) (nput nadded : ℕ)
    (heap : ℕ → Option DnstresHosts) : Prop where
  range : unlinked = List.range unlinked.length
  le : unlinked.length ≤ nput
  put_le : nput ≤ nadded
  first_eq : first = if unlinked.length < nadded then some unlinked.length else none
  last_eq : last = if unlinked.length < nadded then some (nadded - 1) else none
  next : ∀ h entry, heap h = some entry → nput ≤ h → entry.next = successor nadded h
  there : ∀ h, heap h ≠ none → h < nadded

structure Handouts (texts : ℕ → Bytes) (heap : ℕ → Option DnstresHosts) (taken : List (ℕ × Host))
    (served nput nadded : ℕ) : Prop where
  text : ∀ h, ∀ ch ∈ texts h, ch ≠ 0
  cursor : ∀ h entry, heap h = some entry → Cursor (texts h) entry
  before : ∀ h entry, heap h = some entry → ∀ host, IsHost (texts h) host →
    (host.1 < entry.nextHost ↔ (h, host) ∈ taken)
  isHost : ∀ x ∈ taken, IsHost (texts x.1) x.2
  le : ∀ x ∈ taken, x.1 ≤ served ∧ x.1 < nadded
  full : ∀ h < nput, Full texts taken h
  sorted : taken.Pairwise fun x y => x.1 < y.1 ∨ x.1 = y.1 ∧ x.2.1 < y.2.1

theorem At.of_outside {point : Point} (h : ¬ Inside point) (served nput nadded : ℕ) (full : Prop) :
    At served nput nadded full point := by
  cases point with
  | cleanup _ caller | free _ caller =>
    cases caller with
    | getHost => exact absurd trivial h
    | resolver => trivial
  | lock | resolve | put | waiting => trivial
  | _ => exact absurd trivial h

section

variable {mutex : Option (Fin n)} {points : Fin n → Point} {served nput nadded : ℕ} {full : Prop}
  {t : Fin n} {point : Point}

theorem Exclusion.others (h : Exclusion mutex points served nput nadded full)
    (hinside : Inside (points t)) {other : Fin n} (hne : other ≠ t) : ¬ Inside (points other) := by
  rw [h.inside, (h.inside t).mp hinside]
  exact fun heq => hne (Option.some.inj heq).symm

variable {nadded' : ℕ} {full' : Prop}

theorem Exclusion.stay (h : Exclusion mutex points served nput nadded full)
    (hinside : Inside (points t)) (point : Point) (hpoint : Inside point) {served' nput' : ℕ}
    (hat : At served' nput' nadded' full' point) :
    Exclusion mutex (Function.update points t point) served' nput' nadded' full' := by
  have hmutex := (h.inside t).mp hinside
  refine ⟨fun other => ?_, fun hnone => ?_, fun other => ?_⟩
  · by_cases hother : other = t
    · rw [hother, Function.update_self, hmutex]
      exact iff_of_true hpoint rfl
    · rw [Function.update_of_ne hother]
      exact h.inside other
  · rw [hmutex] at hnone
    cases hnone
  · by_cases hother : other = t
    · rw [hother, Function.update_self]
      exact hat
    · rw [Function.update_of_ne hother]
      exact .of_outside (h.others hinside hother) ..

theorem Exclusion.leave (h : Exclusion mutex points served nput nadded full)
    (hinside : Inside (points t)) (hpoint : ¬ Inside point) {served' nput' : ℕ}
    (hidle : nput' = served') :
    Exclusion none (Function.update points t point) served' nput' nadded' full' := by
  have hout : ∀ other, ¬ Inside (Function.update points t point other) := by
    intro other
    by_cases hother : other = t
    · rw [hother, Function.update_self]
      exact hpoint
    · rw [Function.update_of_ne hother]
      exact h.others hinside hother
  exact ⟨fun other => iff_of_false (hout other) nofun, fun _ => hidle,
    fun other => .of_outside (hout other) ..⟩

theorem Exclusion.enter (h : Exclusion none points served nput nadded full) (hpoint : Inside point)
    (hat : At served nput nadded full point) :
    Exclusion (some t) (Function.update points t point) served nput nadded full := by
  have hout : ∀ other, ¬ Inside (points other) := by
    intro other
    rw [h.inside]
    exact nofun
  refine ⟨fun other => ?_, nofun, fun other => ?_⟩
  · by_cases hother : other = t
    · rw [hother, Function.update_self]
      exact iff_of_true hpoint rfl
    · rw [Function.update_of_ne hother]
      exact iff_of_false (hout other) fun heq => hother (Option.some.inj heq).symm
  · by_cases hother : other = t
    · rw [hother, Function.update_self]
      exact hat
    · rw [Function.update_of_ne hother]
      exact .of_outside (hout other) ..

theorem Exclusion.outside (h : Exclusion mutex points served nput nadded full)
    (hbefore : ¬ Inside (points t)) (hpoint : ¬ Inside point) :
    Exclusion mutex (Function.update points t point) served nput nadded full := by
  refine ⟨fun other => ?_, h.idle, fun other => ?_⟩
  · by_cases hother : other = t
    · rw [hother, Function.update_self, ← h.inside t]
      exact iff_of_false hpoint hbefore
    · rw [Function.update_of_ne hother]
      exact h.inside other
  · by_cases hother : other = t
    · rw [hother, Function.update_self]
      exact .of_outside hpoint ..
    · rw [Function.update_of_ne hother]
      exact h.at' other

theorem Exclusion.add
    (h : Exclusion none points served nput nadded full) :
    Exclusion none points served nput nadded' full' := by
  refine ⟨h.inside, h.idle, fun other => .of_outside ?_ ..⟩
  rw [h.inside]
  exact nofun

end

section

variable {first last : Option ℕ} {unlinked : List ℕ} {nput nadded : ℕ}
  {heap heap' : ℕ → Option DnstresHosts}

section

variable (h : Listing first last unlinked nput nadded heap)

include h

theorem Listing.keeps (hnext : Keeps (·.next) heap heap') :
    Listing first last unlinked nput nadded heap' := by
  refine ⟨h.range, h.le, h.put_le, h.first_eq, h.last_eq, fun other entry' hentry' hge => ?_,
    fun other hother => ?_⟩
  · obtain ⟨entry, hentry, heq⟩ := hnext other entry' hentry'
    exact heq.trans (h.next other entry hentry hge)
  · obtain ⟨entry', hentry'⟩ := Option.ne_none_iff_exists'.mp hother
    obtain ⟨entry, hentry, -⟩ := hnext other entry' hentry'
    refine h.there other ?_
    rw [hentry]
    exact Option.some_ne_none entry

theorem Listing.put (hlt : nput < nadded) :
    Listing first last unlinked (nput + 1) nadded heap :=
  ⟨h.range, h.le.trans (Nat.le_succ nput), hlt, h.first_eq, h.last_eq,
    fun other entry hentry hge => h.next other entry hentry ((Nat.le_succ nput).trans hge), h.there⟩

theorem Listing.first_of_lt (hlt : unlinked.length < nadded) : first = some unlinked.length := by
  rw [h.first_eq, if_pos hlt]

theorem Listing.unlink (hput : nput = unlinked.length + 1) :
    Listing (successor nadded unlinked.length)
      (if unlinked.length + 1 < nadded then last else none)
      (unlinked ++ [unlinked.length]) nput nadded heap := by
  have hlength : (unlinked ++ [unlinked.length]).length = unlinked.length + 1 := List.length_append
  refine ⟨?_, ?_, h.put_le, ?_, ?_, h.next, h.there⟩
  · rw [hlength, List.range_succ, ← h.range]
  · rw [hlength, hput]
  · rw [hlength]
    rfl
  · rw [hlength]
    split
    · rename_i hmore
      rw [h.last_eq, if_pos (Nat.lt_of_succ_lt hmore)]
    · rfl

theorem Listing.added {entry : DnstresHosts}
    (hentry : entry.next = none)
    (hbefore : ∀ other found, heap' other = some found → nput ≤ other → other < nadded →
      found.next = successor (nadded + 1) other)
    (hlt : ∀ other, heap' other ≠ none → other < nadded) :
    Listing (if unlinked.length < nadded then first else some nadded) (some nadded) unlinked nput
      (nadded + 1) (Function.update heap' nadded (some entry)) := by
  have hle := h.le.trans h.put_le
  refine ⟨h.range, h.le, h.put_le.trans (Nat.le_succ nadded), ?_, ?_,
    fun other found hfound hge => ?_, fun other hother => ?_⟩
  · rw [if_pos (Nat.lt_succ_of_le hle)]
    split
    · rename_i hmore
      exact h.first_of_lt hmore
    · rename_i hempty
      rw [le_antisymm hle (Nat.le_of_not_lt hempty)]
  · rw [if_pos (Nat.lt_succ_of_le hle), Nat.add_sub_cancel]
  · by_cases hother : other = nadded
    · rw [hother, Function.update_self] at hfound
      rw [hother, ← Option.some.inj hfound, hentry, successor, if_neg (lt_irrefl _)]
    · rw [Function.update_of_ne hother] at hfound
      refine hbefore other found hfound hge (hlt other ?_)
      rw [hfound]
      exact Option.some_ne_none found
  · by_cases heq : other = nadded
    · rw [heq]
      exact Nat.lt_succ_self nadded
    · rw [Function.update_of_ne heq] at hother
      exact Nat.lt_succ_of_lt (hlt other hother)

end

end

def cursorOf (entry : DnstresHosts) : ℕ × Bytes := (entry.nextHost, entry.hosts)

theorem Cursor.congr {text : Bytes} {entry entry' : DnstresHosts} (h : Cursor text entry)
    (hsame : cursorOf entry' = cursorOf entry) : Cursor text entry' := by
  obtain ⟨hnext, hhosts⟩ := Prod.mk.inj hsame
  obtain ⟨hle, hrest, hbefore⟩ := h
  rw [← hnext] at hle hrest hbefore
  rw [← hhosts] at hrest
  exact ⟨hle, hrest, hbefore⟩

section

variable {texts : ℕ → Bytes} {heap heap' : ℕ → Option DnstresHosts} {taken : List (ℕ × Host)}
  {served nput nadded : ℕ}

theorem Handouts.keeps (h : Handouts texts heap taken served nput nadded)
    (hcursor : Keeps cursorOf heap heap') : Handouts texts heap' taken served nput nadded := by
  refine ⟨h.text, fun other entry' hentry' => ?_, fun other entry' hentry' host hhost => ?_, h.isHost,
    h.le, h.full, h.sorted⟩
  · obtain ⟨entry, hentry, hsame⟩ := hcursor other entry' hentry'
    exact (h.cursor other entry hentry).congr hsame
  · obtain ⟨entry, hentry, hsame⟩ := hcursor other entry' hentry'
    rw [(Prod.mk.inj hsame).1]
    exact h.before other entry hentry host hhost

variable {entry : DnstresHosts}

section

variable (h : Handouts texts heap taken served nput nadded)

include h

theorem Handouts.depleted {j : ℕ}
    (hentry : heap j = some entry) (hnext : dnstresHostsNext entry = none) :
    Full texts taken j := by
  intro host hhost
  rw [← h.before j entry hentry host hhost]
  exact dnstresHostsNext_none (h.cursor j entry hentry) (h.text j) hnext host hhost

theorem Handouts.put (hfull : Full texts taken nput) : Handouts texts heap taken served
    (nput + 1) nadded := by
  refine ⟨h.text, h.cursor, h.before, h.isHost, h.le, fun other hother => ?_, h.sorted⟩
  obtain hlt | rfl := Nat.lt_succ_iff_lt_or_eq.mp hother
  · exact h.full other hlt
  · exact hfull

theorem Handouts.unlink :
    Handouts texts heap taken (served + 1) nput nadded :=
  ⟨h.text, h.cursor, h.before, h.isHost, fun x hx => (h.le x hx).imp_left Nat.le_succ_of_le,
    h.full, h.sorted⟩

theorem Handouts.take (hentry : heap served = some entry) (hlt : served < nadded) {host : Host}
    {entry' : DnstresHosts} (hnext : dnstresHostsNext entry = some (host, entry')) :
    Handouts texts (Function.update heap served (some entry')) (taken ++ [(served, host)]) served
      nput nadded := by
  have hhanded := dnstresHostsNext_some (h.cursor served entry hentry) (h.text served) hnext
  have hmem : ∀ other found, (other, found) ∈ taken ++ [(served, host)] ↔
      (other, found) ∈ taken ∨ (other = served ∧ found = host) := by
    intro other found
    rw [List.mem_append, List.mem_singleton, Prod.mk.injEq]
  refine ⟨h.text, fun other found hfound => ?_, fun other found hfound given hgiven => ?_,
    fun x hx => ?_, fun x hx => ?_, fun other hother given hgiven => ?_, ?_⟩
  · by_cases hother : other = served
    · rw [hother, Function.update_self] at hfound
      rw [hother, ← Option.some.inj hfound]
      exact hhanded.cursor
    · rw [Function.update_of_ne hother] at hfound
      exact h.cursor other found hfound
  · rw [hmem]
    by_cases hother : other = served
    · subst hother
      rw [Function.update_self] at hfound
      rw [← Option.some.inj hfound, ← h.before other entry hentry given hgiven]
      constructor
      · intro hbefore
        by_cases hgone : given.1 < entry.nextHost
        · exact .inl hgone
        · exact .inr ⟨rfl, hhanded.only given hgiven (Nat.le_of_not_lt hgone) hbefore⟩
      · rintro (hgone | ⟨-, rfl⟩)
        · exact hgone.trans (hhanded.from_cursor.trans_lt hhanded.before_cursor)
        · exact hhanded.before_cursor
    · rw [Function.update_of_ne hother] at hfound
      rw [h.before other found hfound given hgiven]
      exact (or_iff_left fun heq => hother heq.1).symm
  · obtain hx | hx := List.mem_append.mp hx
    · exact h.isHost x hx
    · rw [List.mem_singleton.mp hx]
      exact hhanded.isHost
  · obtain hx | hx := List.mem_append.mp hx
    · exact h.le x hx
    · rw [List.mem_singleton.mp hx]
      exact ⟨le_rfl, hlt⟩
  · exact List.mem_append_left _ (h.full other hother given hgiven)
  · rw [List.pairwise_append]
    refine ⟨h.sorted, List.pairwise_singleton _ _, fun x hx y hy => ?_⟩
    rw [List.mem_singleton.mp hy]
    refine (lt_or_eq_of_le (h.le x hx).1).imp_right fun (heq : x.1 = served) => ⟨heq, ?_⟩
    have hisHost := h.isHost x hx
    rw [heq] at hisHost
    refine lt_of_lt_of_le ((h.before served entry hentry x.2 hisHost).mpr ?_) hhanded.from_cursor
    rw [← heq]
    exact hx

theorem Handouts.added (hput : nput ≤ nadded)
    (hcursor : Keeps cursorOf heap heap') {hosts : Bytes}
    (hentry : cursorOf entry = cursorOf (dnstresHostsNew hosts))
    (hnone : ∀ other, heap' other ≠ none → other < nadded) :
    Handouts (Function.update texts nadded (cstring hosts))
      (Function.update heap' nadded (some entry)) taken served nput (nadded + 1) := by
  have hkeeps := h.keeps hcursor
  have htexts : ∀ other < nadded, Function.update texts nadded (cstring hosts) other =
      texts other := fun other hother => Function.update_of_ne hother.ne ..
  have hold : ∀ other found, other ≠ nadded →
      Function.update heap' nadded (some entry) other = some found →
        heap' other = some found ∧ other < nadded := by
    intro other found hother hfound
    rw [Function.update_of_ne hother] at hfound
    exact ⟨hfound, hnone other (by rw [hfound]; exact Option.some_ne_none found)⟩
  refine ⟨fun other ch hch => ?_, fun other found hfound => ?_,
    fun other found hfound given hgiven => ?_, fun x hx => ?_, fun x hx => ?_,
    fun other hother given hgiven => ?_, h.sorted⟩
  · by_cases hother : other = nadded
    · rw [hother, Function.update_self] at hch
      exact ne_zero_of_mem_cstring hch
    · rw [Function.update_of_ne hother] at hch
      exact h.text other ch hch
  · by_cases hother : other = nadded
    · rw [hother, Function.update_self] at hfound ⊢
      rw [← Option.some.inj hfound]
      exact (dnstresHostsNew_cursor hosts).congr hentry
    · obtain ⟨hfound, hlt⟩ := hold other found hother hfound
      rw [htexts other hlt]
      exact hkeeps.cursor other found hfound
  · by_cases hother : other = nadded
    · rw [hother, Function.update_self] at hfound
      rw [← Option.some.inj hfound, (Prod.mk.inj hentry).1, hother]
      refine iff_of_false (Nat.not_lt_zero _) fun hmem => ?_
      exact lt_irrefl nadded (h.le _ hmem).2
    · obtain ⟨hfound, hlt⟩ := hold other found hother hfound
      rw [htexts other hlt] at hgiven
      exact hkeeps.before other found hfound given hgiven
  · rw [htexts x.1 (h.le x hx).2]
    exact h.isHost x hx
  · exact (h.le x hx).imp_right Nat.lt_succ_of_lt
  · rw [htexts other (hother.trans_le hput)] at hgiven
    exact h.full other hother given hgiven

end

end

end Yans.Net.Dnstres
