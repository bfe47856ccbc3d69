import Yans.Net.DnstresPool

/-! The invariant of the pool, and what follows from it for the hosts and the
requests in every run. -/
namespace Yans.Net.Dnstres

open Library.Memory Library.Runs

variable {n : ℕ}

def Pending (served : ℕ) (points : Fin n → Point) (taken returned : List (ℕ × Host)) : Prop :=
  ∀ x ∈ taken, x ∈ returned ∨ ∃ t, resolving served (points t) = some x

structure Inv (s : State n) : Prop where
  exclusion : Exclusion s.mutex s.points s.unlinked.length s.nput s.nadded
    (Full s.texts s.taken s.unlinked.length)
  listing : Listing s.first s.last s.unlinked s.nput s.nadded s.heap
  references : References s.nput s.nadded s.heap s.points s.done
  handouts : Handouts s.texts s.heap s.taken s.unlinked.length s.nput s.nadded
  pending : Pending s.unlinked.length s.points s.taken s.returned

section

variable {served : ℕ} {points : Fin n → Point} {taken returned : List (ℕ × Host)} {t : Fin n}
  {point : Point}

theorem Pending.move (h : Pending served points taken returned) {returned' : List (ℕ × Host)}
    (hreturned : ∀ x ∈ returned, x ∈ returned')
    (hpoint : ∀ x, resolving served (points t) = some x →
      x ∈ returned' ∨ resolving served point = some x) :
    Pending served (Function.update points t point) taken returned' := by
  intro x hx
  obtain hx | ⟨other, hother⟩ := h x hx
  · exact .inl (hreturned x hx)
  · by_cases heq : other = t
    · rw [heq] at hother
      refine (hpoint x hother).imp_right fun hafter => ⟨t, ?_⟩
      rw [Function.update_self]
      exact hafter
    · refine .inr ⟨other, ?_⟩
      rw [Function.update_of_ne heq]
      exact hother

theorem Pending.take (h : Pending served points taken returned) {host : Host}
    (hbefore : resolving served (points t) = none) :
    Pending served (Function.update points t (.get host)) (taken ++ [(served, host)]) returned := by
  intro x hx
  obtain hx | hx := List.mem_append.mp hx
  · exact h.move (fun _ => id) (fun y hy => by rw [hbefore] at hy; cases hy) x hx
  · rw [List.mem_singleton.mp hx]
    refine .inr ⟨t, ?_⟩
    rw [Function.update_self]
    rfl

theorem resolving_of_outside (h : ¬ Inside point) (served' : ℕ) :
    resolving served' point = resolving served point := by
  cases point with
  | get => exact absurd trivial h
  | _ => rfl

theorem Pending.unlink (h : Pending served points taken returned)
    (hothers : ∀ other ≠ t, ¬ Inside (points other)) (hbefore : resolving served (points t) = none)
    (served' : ℕ) : Pending served' (Function.update points t point) taken returned := by
  intro x hx
  refine (h x hx).imp_right fun ⟨other, hother⟩ => ⟨other, ?_⟩
  have hne : other ≠ t := by
    rintro rfl
    rw [hbefore] at hother
    cases hother
  rw [Function.update_of_ne hne, resolving_of_outside (hothers other hne)]
  exact hother

end

variable {s : State n}

theorem Inv.move (h : Inv s) {t : Fin n} {old : Point} (hpoint : s.points t = old)
    (point : Point) {mutex : Option (Fin n)}
    (hexclusion : Exclusion mutex (Function.update s.points t point) s.unlinked.length s.nput
      s.nadded (Full s.texts s.taken s.unlinked.length))
    (hholding : holding point = holding old) (hbefore : cleaning old = none)
    (hafter : cleaning point = none)
    (hresolving : ∀ x, resolving s.unlinked.length old = some x →
      resolving s.unlinked.length point = some x) :
    Inv (goto t point { s with mutex := mutex }) := by
  subst hpoint
  exact ⟨hexclusion, h.listing, h.references.move hholding hbefore hafter .refl fun _ => id,
    h.handouts, h.pending.move (fun _ => id) fun x hx => .inr (hresolving x hx)⟩

theorem Inv.inside (h : Inv s) {t : Fin n} {point : Point}
    (hpoint : s.points t = point) (hinside : Inside point) : Inside (s.points t) ∧
      At s.unlinked.length s.nput s.nadded (Full s.texts s.taken s.unlinked.length) point := by
  subst hpoint
  exact ⟨hinside, h.exclusion.at' t⟩

theorem dnstresHostsPut_eq (t : Fin n) {j : ℕ} (caller : Caller)
    {entry : DnstresHosts} (hentry : s.heap j = some entry) :
    dnstresHostsPut t j caller s = some (goto t (behindPut entry.refcount j caller)
      (store j { entry with refcount := entry.refcount - 1 } s)) := by
  unfold dnstresHostsPut
  rw [hentry]
  rfl

section

variable {s' : State n} {t : Fin n}

theorem Inv.first_bind (h : Inv s) (hlt : s.unlinked.length < s.nadded)
    {next : ℕ → Option (State n)} (hstep : s.first >>= next = some s') :
    next s.unlinked.length = some s' := by
  rw [h.listing.first_of_lt hlt] at hstep
  exact hstep

variable (h : Inv s)

include h

section

variable (hstep : resolver t s = some s')

include hstep

theorem lock_inv (hpoint : s.points t = .lock) : Inv s' := by
  simp only [resolver, hpoint] at hstep
  split at hstep
  · rename_i hmutex
    cases hstep
    have hexclusion := h.exclusion
    rw [hmutex] at hexclusion
    exact h.move hpoint .again (hexclusion.enter trivial (hexclusion.idle rfl)) rfl rfl rfl nofun
  · cases hstep

theorem again_inv (hpoint : s.points t = .again) : Inv s' := by
  obtain ⟨hinside, hat⟩ := h.inside hpoint trivial
  simp only [resolver, hpoint] at hstep
  cases hstep
  split
  · exact h.move hpoint .wait (h.exclusion.stay hinside .wait trivial hat) rfl rfl rfl nofun
  · rename_i hfirst
    have hlt : s.unlinked.length < s.nadded := by
      by_contra hempty
      rw [h.listing.first_eq, if_neg hempty] at hfirst
      exact hfirst rfl
    exact h.move hpoint .next (h.exclusion.stay hinside .next trivial ⟨hat, hlt⟩) rfl rfl rfl nofun

theorem next_inv (hpoint : s.points t = .next) : Inv s' := by
  obtain ⟨hinside, hput, hlt⟩ := h.inside hpoint trivial
  simp only [resolver, hpoint] at hstep
  replace hstep := h.first_bind hlt hstep
  obtain ⟨entry, hentry, hstep⟩ := Option.bind_eq_some_iff.mp hstep
  cases hnext : dnstresHostsNext entry with
  | none =>
    rw [hnext] at hstep
    cases hstep
    have hfull := h.handouts.depleted hentry hnext
    exact h.move hpoint .depleted
      (h.exclusion.stay hinside .depleted trivial ⟨hput, hlt, hfull⟩) rfl rfl rfl nofun
  | some found =>
    obtain ⟨host, entry'⟩ := found
    rw [hnext] at hstep
    cases hstep
    have hhanded :=
      dnstresHostsNext_some (h.handouts.cursor _ entry hentry) (h.handouts.text _) hnext
    refine ⟨h.exclusion.stay hinside (.get host) trivial ⟨hput, hlt⟩,
      h.listing.keeps (.update hentry hhanded.next),
      h.references.move ?_ ?_ rfl (.update hentry hhanded.refcount) fun _ => stored_ne_none,
      h.handouts.take hentry hlt hnext, h.pending.take ?_⟩ <;> rw [hpoint] <;> rfl

theorem depleted_inv (hpoint : s.points t = .depleted) : Inv s' := by
  obtain ⟨hinside, hput, hlt, hfull⟩ := h.inside hpoint trivial
  simp only [resolver, hpoint] at hstep
  replace hstep := h.first_bind hlt hstep
  obtain ⟨entry, hentry, hstep⟩ := Option.bind_eq_some_iff.mp hstep
  cases hstep
  have hnext := h.listing.next _ entry hentry hput.le
  exact h.move hpoint (.listPut entry.next)
    (h.exclusion.stay hinside (.listPut entry.next) trivial ⟨hput, hlt, hfull, hnext⟩) rfl rfl rfl
    nofun

theorem listPut_inv {after : Option ℕ} (hpoint : s.points t = .listPut after) : Inv s' := by
  obtain ⟨hinside, hput, hlt, hfull, hafter⟩ := h.inside hpoint trivial
  simp only [resolver, hpoint] at hstep
  replace hstep := h.first_bind hlt hstep
  rw [← hput] at hlt hfull hafter
  obtain ⟨entry, hentry⟩ :=
    Option.ne_none_iff_exists'.mp (h.references.listed s.nput le_rfl hlt)
  rw [← hput, @dnstresHostsPut_eq n { s with nput := s.nput + 1 } t s.nput _ entry hentry] at hstep
  cases hstep
  have hat' : At s.unlinked.length (s.nput + 1) s.nadded (Full s.texts s.taken s.unlinked.length)
      (behindPut entry.refcount s.nput (.getHost after)) := by
    unfold behindPut
    split <;> exact ⟨by rw [hput], hput ▸ hlt, hput ▸ hafter⟩
  have hinside' : Inside (behindPut entry.refcount s.nput (.getHost after)) := by
    unfold behindPut
    split <;> trivial
  refine ⟨h.exclusion.stay hinside _ hinside' hat', (h.listing.put hlt).keeps (.update hentry rfl),
    h.references.listPut hentry ?_ ?_ _, (h.handouts.put hfull).keeps (.update hentry rfl),
    h.pending.move (fun _ => id) fun x hx => ?_⟩
  · rw [hpoint]
    rfl
  · rw [hpoint]
    rfl
  · rw [hpoint] at hx
    cases hx

theorem unlink_inv {after : Option ℕ} (hpoint : s.points t = .unlink after) : Inv s' := by
  obtain ⟨hinside, hput, hlt, hafter⟩ := h.inside hpoint trivial
  have hlength : (s.unlinked ++ [s.unlinked.length]).length = s.unlinked.length + 1 :=
    List.length_append
  have hlisting := h.listing.unlink hput
  have hothers : ∀ other ≠ t, ¬ Inside (s.points other) :=
    fun other => h.exclusion.others hinside
  have hresolving : resolving s.unlinked.length (s.points t) = none := by rw [hpoint]; rfl
  have hholding : holding (s.points t) = none := by rw [hpoint]; rfl
  have hcleaning : cleaning (s.points t) = none := by rw [hpoint]; rfl
  simp only [resolver, hpoint] at hstep
  replace hstep := h.first_bind hlt hstep
  rw [successor] at hafter
  split at hafter
  · rename_i hmore
    rw [hafter] at hstep
    obtain ⟨entry, hentry, hstep⟩ := Option.bind_eq_some_iff.mp hstep
    cases hstep
    rw [successor, if_pos hmore, if_pos hmore] at hlisting
    refine ⟨?_, hlisting.keeps (.update hentry rfl),
      h.references.move hholding.symm hcleaning rfl (.update hentry rfl) fun _ => stored_ne_none,
      ?_, ?_⟩
    · refine h.exclusion.stay hinside .next trivial ⟨?_, ?_⟩
      · exact hput.trans hlength.symm
      · exact hlength.trans_lt hmore
    · change Handouts s.texts _ s.taken (s.unlinked ++ [s.unlinked.length]).length s.nput s.nadded
      rw [hlength]
      exact h.handouts.unlink.keeps (.update hentry rfl)
    · exact h.pending.unlink hothers hresolving _
  · rename_i hmore
    rw [hafter] at hstep
    cases hstep
    rw [successor, if_neg hmore, if_neg hmore] at hlisting
    refine ⟨?_, hlisting, h.references.move hholding.symm hcleaning rfl .refl fun _ => id, ?_, ?_⟩
    · exact h.exclusion.stay hinside .wait trivial (hput.trans hlength.symm)
    · change Handouts s.texts _ s.taken (s.unlinked ++ [s.unlinked.length]).length s.nput s.nadded
      rw [hlength]
      exact h.handouts.unlink
    · exact h.pending.unlink hothers hresolving _

variable {host : Host}

theorem get_inv (hpoint : s.points t = .get host) : Inv s' := by
  obtain ⟨hinside, hput, hlt⟩ := h.inside hpoint trivial
  simp only [resolver, hpoint] at hstep
  replace hstep := h.first_bind hlt hstep
  obtain ⟨entry, hentry, hstep⟩ := Option.bind_eq_some_iff.mp hstep
  cases hstep
  refine ⟨h.exclusion.stay hinside (.unlock s.unlinked.length host) trivial hput,
    h.listing.keeps (.update hentry rfl), h.references.get hentry hput.le hlt ?_ ?_ host,
    h.handouts.keeps (.update hentry rfl), h.pending.move (fun _ => id) fun x hx => .inr ?_⟩
  · rw [hpoint]
    rfl
  · rw [hpoint]
    rfl
  · rw [hpoint] at hx
    exact hx

variable {j : ℕ}

theorem unlock_inv (hpoint : s.points t = .unlock j host) : Inv s' := by
  obtain ⟨hinside, hat⟩ := h.inside hpoint trivial
  simp only [resolver, hpoint] at hstep
  cases hstep
  exact h.move hpoint (.resolve j host) (h.exclusion.leave hinside id hat) rfl rfl rfl fun _ => id

theorem resolve_inv (hpoint : s.points t = .resolve j host) : Inv s' := by
  have houtside : ¬ Inside (s.points t) := by rw [hpoint]; exact id
  simp only [resolver, hpoint] at hstep
  obtain ⟨entry, -, hstep⟩ := Option.bind_eq_some_iff.mp hstep
  cases hstep
  refine ⟨h.exclusion.outside houtside id, h.listing,
    h.references.move ?_ ?_ rfl .refl fun _ => id, h.handouts,
    h.pending.move (fun x hx => List.mem_append_left _ hx) fun x hx => .inl ?_⟩
  · rw [hpoint]
    rfl
  · rw [hpoint]
    rfl
  · rw [hpoint] at hx
    rw [← Option.some.inj hx]
    exact List.mem_append_right _ (List.mem_singleton_self _)

theorem put_inv (hpoint : s.points t = .put j) : Inv s' := by
  have houtside : ¬ Inside (s.points t) := by rw [hpoint]; exact id
  have hholding : holding (s.points t) = some j := by rw [hpoint]; rfl
  have houtside' : ∀ refcount, ¬ Inside (behindPut refcount j .resolver) := by
    intro refcount
    unfold behindPut
    split <;> exact id
  obtain ⟨entry, hentry⟩ := Option.ne_none_iff_exists'.mp (h.references.held t j hholding).2
  simp only [resolver, hpoint] at hstep
  rw [dnstresHostsPut_eq t _ hentry] at hstep
  cases hstep
  refine ⟨h.exclusion.outside houtside (houtside' _), h.listing.keeps (.update hentry rfl),
    h.references.put hentry hholding ?_ _, h.handouts.keeps (.update hentry rfl),
    h.pending.move (fun _ => id) fun x hx => ?_⟩
  · rw [hpoint]
    rfl
  · rw [hpoint] at hx
    cases hx

theorem cleanup_inv {caller : Caller}
    (hpoint : s.points t = .cleanup j caller) : Inv s' := by
  have hat := h.exclusion.at' t
  rw [hpoint] at hat
  simp only [resolver, hpoint] at hstep
  obtain ⟨entry, -, hstep⟩ := Option.bind_eq_some_iff.mp hstep
  cases hstep
  refine ⟨?_, h.listing, h.references.called_done hpoint, h.handouts,
    h.pending.move (fun _ => id) fun x hx => ?_⟩
  · cases caller with
    | getHost after =>
      have hinside : Inside (s.points t) := by rw [hpoint]; trivial
      exact h.exclusion.stay hinside (.free j (.getHost after)) trivial hat
    | resolver =>
      have houtside : ¬ Inside (s.points t) := by rw [hpoint]; exact id
      exact h.exclusion.outside houtside id
  · rw [hpoint] at hx
    cases hx

theorem free_inv {caller : Caller} (hpoint : s.points t = .free j caller) : Inv s' := by
  have hat := h.exclusion.at' t
  rw [hpoint] at hat
  simp only [resolver, hpoint] at hstep
  obtain ⟨entry, -, hstep⟩ := Option.bind_eq_some_iff.mp hstep
  cases hstep
  refine ⟨?_, h.listing.keeps .erase, h.references.freed hpoint, h.handouts.keeps .erase,
    h.pending.move (fun _ => id) fun x hx => ?_⟩
  · cases caller with
    | getHost after =>
      have hinside : Inside (s.points t) := by rw [hpoint]; trivial
      exact h.exclusion.stay hinside (.unlink after) trivial hat
    | resolver =>
      have houtside : ¬ Inside (s.points t) := by rw [hpoint]; exact id
      exact h.exclusion.outside houtside id
  · rw [hpoint] at hx
    cases hx

theorem wait_inv (hpoint : s.points t = .wait) : Inv s' := by
  obtain ⟨hinside, hat⟩ := h.inside hpoint trivial
  simp only [resolver, hpoint] at hstep
  cases hstep
  exact h.move hpoint .waiting (h.exclusion.leave hinside id hat) rfl rfl rfl fun _ => id

theorem waiting_inv (hpoint : s.points t = .waiting) : Inv s' := by
  have houtside : ¬ Inside (s.points t) := by rw [hpoint]; exact id
  simp only [resolver, hpoint] at hstep
  cases hstep
  exact h.move hpoint .lock (h.exclusion.outside houtside id) rfl rfl rfl fun _ => id

theorem resolver_inv : Inv s' := by
  cases hpoint : s.points t with
  | lock => exact lock_inv h hstep hpoint
  | again => exact again_inv h hstep hpoint
  | next => exact next_inv h hstep hpoint
  | depleted => exact depleted_inv h hstep hpoint
  | listPut after => exact listPut_inv h hstep hpoint
  | unlink after => exact unlink_inv h hstep hpoint
  | get host => exact get_inv h hstep hpoint
  | unlock j host => exact unlock_inv h hstep hpoint
  | resolve j host => exact resolve_inv h hstep hpoint
  | put j => exact put_inv h hstep hpoint
  | cleanup j caller => exact cleanup_inv h hstep hpoint
  | free j caller => exact free_inv h hstep hpoint
  | wait => exact wait_inv h hstep hpoint
  | waiting => exact waiting_inv h hstep hpoint

end

theorem add_first_inv (hmutex : s.mutex = none) (hlast : s.last = none) (hosts : Bytes)
    (hstep : dnstresPoolAddHosts (some hosts) s = some s') : Inv s' := by
  have hexclusion := h.exclusion
  rw [hmutex] at hexclusion
  have hempty : ¬ s.unlinked.length < s.nadded := by
    intro hlt
    rw [h.listing.last_eq, if_pos hlt] at hlast
    cases hlast
  have hput := h.listing.put_le
  have hle := h.listing.le
  simp only [dnstresPoolAddHosts, hmutex, hlast, Ne, not_true_eq_false, if_false] at hstep
  split at hstep
  · cases hstep
    have hnone : (dnstresHostsNew hosts).next = none := rfl
    have hlisting := h.listing.added hnone
      (fun other found _ hge hlt => absurd hlt (by omega)) h.listing.there
    rw [if_neg hempty] at hlisting
    exact ⟨hexclusion.add, hlisting, h.references.added hput .refl (fun _ => id) rfl,
      h.handouts.added hput .refl rfl h.listing.there, h.pending⟩
  · cases hstep

theorem add_last_inv (hmutex : s.mutex = none) {last : ℕ} (hlast : s.last = some last)
    (hosts : Bytes) (hstep : dnstresPoolAddHosts (some hosts) s = some s') : Inv s' := by
  have hexclusion := h.exclusion
  rw [hmutex] at hexclusion
  have hmore : s.unlinked.length < s.nadded := by
    by_contra hempty
    rw [h.listing.last_eq, if_neg hempty] at hlast
    cases hlast
  have hlast' : last + 1 = s.nadded := by
    rw [h.listing.last_eq, if_pos hmore] at hlast
    have heq := Option.some.inj hlast
    omega
  have hput := h.listing.put_le
  simp only [dnstresPoolAddHosts, hmutex, hlast, Ne, not_true_eq_false, if_false] at hstep
  obtain ⟨before, hbefore, hstep⟩ := Option.bind_eq_some_iff.mp hstep
  cases hstep
  have hthere : ∀ other, Function.update s.heap last (some { before with next := some s.nadded })
      other ≠ none → other < s.nadded := by
    intro other hother
    by_cases heq : other = last
    · omega
    · rw [Function.update_of_ne heq] at hother
      exact h.listing.there other hother
  have hnext : ∀ other found,
      Function.update s.heap last (some { before with next := some s.nadded }) other = some found →
        s.nput ≤ other → other < s.nadded → found.next = successor (s.nadded + 1) other := by
    intro other found hfound hge hlt
    rw [successor, if_pos (Nat.succ_lt_succ hlt)]
    by_cases heq : other = last
    · rw [heq, Function.update_self] at hfound
      rw [← Option.some.inj hfound, heq, hlast']
    · rw [Function.update_of_ne heq] at hfound
      rw [h.listing.next other found hfound hge, successor, if_pos (by omega)]
  have hnone : ({ dnstresHostsNew hosts with prev := some last } : DnstresHosts).next = none := rfl
  have hlisting := h.listing.added hnone hnext hthere
  rw [if_pos hmore] at hlisting
  have hrefs : Keeps (·.refcount) s.heap
      (Function.update s.heap last (some { before with next := some s.nadded })) :=
    .update hbefore rfl
  have hcursor : Keeps cursorOf s.heap
      (Function.update s.heap last (some { before with next := some s.nadded })) :=
    .update hbefore rfl
  exact ⟨hexclusion.add, hlisting, h.references.added hput hrefs (fun _ => stored_ne_none) rfl,
    h.handouts.added hput hcursor rfl hthere, h.pending⟩

theorem add_inv {hosts : Option Bytes}
    (hstep : dnstresPoolAddHosts hosts s = some s') : Inv s' := by
  cases hosts with
  | none =>
    cases hstep
    exact ⟨h.exclusion, h.listing, h.references, h.handouts, h.pending⟩
  | some hosts =>
    have hmutex : s.mutex = none := by
      by_contra hlocked
      simp only [dnstresPoolAddHosts, if_pos hlocked] at hstep
      cases hstep
    cases hlast : s.last with
    | none => exact add_first_inv h hmutex hlast hosts hstep
    | some last => exact add_last_inv h hmutex hlast hosts hstep

end

theorem step_inv {s' : State n} (h : Inv s) {event : Event n} (hstep : step s event = some s') :
    Inv s' := by
  cases event with
  | thread t => exact resolver_inv h hstep
  | add hosts => exact add_inv h hstep

theorem dnstresPoolNew_inv : Inv (dnstresPoolNew n) := by
  refine ⟨⟨fun t => iff_of_false id nofun, fun _ => rfl, fun t => trivial⟩,
    ⟨rfl, le_rfl, le_rfl, rfl, rfl, nofun, fun h hthere => absurd rfl hthere⟩,
    ⟨nofun, fun h _ hlt => absurd hlt (Nat.not_lt_zero h), nofun, nofun, nofun, nofun, nofun, nofun,
      List.nodup_nil⟩,
    ⟨nofun, nofun, nofun, nofun, nofun, fun h hlt => absurd hlt (Nat.not_lt_zero h),
      List.Pairwise.nil⟩, nofun⟩

theorem Run.inv (h : Run s) : Inv s := by
  refine Reachable.invariant ?_ ?_ h
  · rintro s rfl
    exact dnstresPoolNew_inv
  · exact fun before event after hbefore _ hstep => step_inv hbefore hstep

/-- How the work is shared. Each host of each request is handed out at most once
and in the order of the requests, and has been handed out when its request is
unlinked; `on_done` is called at most once, when the resolve calls for all hosts
have returned; no thread and no insertion touches a request after that. -/
structure Distributed (s : State n) : Prop where
  hosts : ∀ x ∈ s.taken, IsHost (s.texts x.1) x.2
  once : s.taken.Nodup
  in_order : s.taken.Pairwise fun x y => x.1 ≤ y.1
  complete : ∀ h ∈ s.unlinked, ∀ host, IsHost (s.texts h) host → (h, host) ∈ s.taken
  unlinked_in_order : s.unlinked = List.range s.unlinked.length
  done_once : s.done.Nodup
  done_after : ∀ h ∈ s.done, ∀ host, IsHost (s.texts h) host → (h, host) ∈ s.returned
  untouched : ∀ t, ∀ h ∈ touches s (s.points t), h ∉ s.done ∧ s.heap h ≠ none
  untouched_by_add : s.mutex = none → ∀ h ∈ s.last, h ∉ s.done ∧ s.heap h ≠ none
  refcounts : ∀ h entry, s.heap h = some entry → 0 ≤ entry.refcount ∧ entry.refcount ≤ n + 1

section

theorem Inv.listed (h : Inv s) {j : ℕ} (hge : s.nput ≤ j) (hlt : j < s.nadded) :
    j ∉ s.done ∧ s.heap j ≠ none :=
  ⟨fun hdone => absurd (h.references.finished j hdone).1 (Nat.not_lt_of_le hge),
    h.references.listed j hge hlt⟩

theorem Inv.first (h : Inv s) (hput : s.nput = s.unlinked.length)
    (hlt : s.unlinked.length < s.nadded) : ∀ j ∈ s.first.toList, j ∉ s.done ∧ s.heap j ≠ none := by
  rw [h.listing.first_of_lt hlt]
  intro j hj
  rw [List.mem_singleton.mp hj]
  exact h.listed hput.le hlt

theorem Inv.held (h : Inv s) {t : Fin n} {j : ℕ} (hholding : holding (s.points t) = some j) :
    j ∉ s.done ∧ s.heap j ≠ none := by
  refine ⟨fun hdone => ?_, (h.references.held t j hholding).2⟩
  exact absurd (h.references.finished j hdone).2 (holders_pos hholding).ne'

theorem Inv.untouched (h : Inv s) (t : Fin n) :
    ∀ j ∈ touches s (s.points t), j ∉ s.done ∧ s.heap j ≠ none := by
  have hat := h.exclusion.at' t
  cases hpoint : s.points t with
  | next | get | depleted | listPut =>
    rw [hpoint] at hat
    first
    | exact h.first hat.1 hat.2
    | exact h.first hat.1 hat.2.1
  | unlink after =>
    rw [hpoint] at hat
    obtain ⟨hput, hlt, hafter⟩ := hat
    intro j hj
    rw [hafter, successor] at hj
    split at hj
    · rename_i hmore
      rw [List.mem_singleton.mp hj, ← hput]
      exact h.listed le_rfl (by omega)
    · cases hj
  | resolve j | put j =>
    intro other hother
    rw [List.mem_singleton.mp hother]
    exact h.held (t := t) (by rw [hpoint]; rfl)
  | cleanup j caller =>
    intro other hother
    rw [List.mem_singleton.mp hother]
    exact ⟨h.references.uncalled t j caller hpoint,
      (h.references.cleaned t j (by rw [hpoint]; rfl)).1⟩
  | _ => exact fun j hj => absurd hj List.not_mem_nil

theorem Inv.done_returned (h : Inv s) {j : ℕ} (hdone : j ∈ s.done) {host : Host}
    (htaken : (j, host) ∈ s.taken) : (j, host) ∈ s.returned := by
  obtain ⟨hlt, hholders⟩ := h.references.finished j hdone
  refine (h.pending _ htaken).resolve_right fun ⟨t, ht⟩ => ?_
  have hat := h.exclusion.at' t
  have hfree : holding (s.points t) ≠ some j := Library.Parties.not_kind_of_count hholders t
  cases hpoint : s.points t with
  | get =>
    rw [hpoint] at ht hat
    have heq := (Prod.mk.inj (Option.some.inj ht)).1
    have hput := hat.1
    omega
  | unlock i | resolve i =>
    rw [hpoint] at ht hfree
    exact hfree (congrArg some (Prod.mk.inj (Option.some.inj ht)).1)
  | _ =>
    rw [hpoint] at ht
    cases ht

end

theorem hosts_distributed {s : State n} (h : Run s) : Distributed s := by
  have hinv := Run.inv h
  have hle := hinv.listing.le
  refine ⟨hinv.handouts.isHost, ?_, ?_, fun j hj host hhost => ?_, hinv.listing.range,
    hinv.references.nodup, fun j hj host hhost => ?_, hinv.untouched, fun hmutex j hj => ?_,
    fun j entry hentry => ?_⟩
  · refine hinv.handouts.sorted.imp ?_
    rintro x y (hlt | ⟨-, hlt⟩) rfl
    · exact lt_irrefl _ hlt
    · exact lt_irrefl _ hlt
  · exact hinv.handouts.sorted.imp fun hlt => hlt.elim le_of_lt fun heq => heq.1.le
  · rw [hinv.listing.range] at hj
    exact hinv.handouts.full j ((List.mem_range.mp hj).trans_le hle) host hhost
  · exact hinv.done_returned hj
      (hinv.handouts.full j (hinv.references.finished j hj).1 host hhost)
  · have hput := hinv.exclusion.idle hmutex
    rw [hinv.listing.last_eq] at hj
    split at hj
    · rename_i hmore
      cases hj
      exact hinv.listed (by omega) (by omega)
    · cases hj
  · have hcounted := hinv.references.counted j entry hentry
    have hcard : holders s.points j ≤ n :=
      Library.Parties.count_le_card.trans_eq (Fintype.card_fin n)
    split at hcounted <;> omega

/-- Two threads share the hosts of `a,b`; the second one also finds the request
depleted and unlinks it while the first one still resolves. -/
def sharing : List (Event 2) :=
  .add (some (Library.Strings.ascii "a,b")) ::
    (List.replicate 5 (.thread 0) ++ List.replicate 13 (.thread 1))

theorem hosts_distributed_sample : ∃ s : State 2, s.unlinked = [0] ∧ s.done = [] ∧
    Distributed s := by
  have hsteps : sharing.foldlM step (dnstresPoolNew 2) = some _ := rfl
  have hrun : Run _ := Reachable.foldlM (fun _ _ _ hnext => hnext) (fun _ _ _ => trivial)
    (.initial rfl) hsteps
  exact ⟨_, by decide, by decide, hosts_distributed hrun⟩

end Yans.Net.Dnstres
