import Yans.Library.Strings
import Yans.Util.Netstring

/-! Parsing netstrings reads and changes nothing behind the end of what is
parsed: what the parser does with some memory alone, it does with that memory
followed by anything. -/
namespace Yans.Util.Netstring

open Library.Memory Library.Decimal

/-- A string that is found ends inside of what is parsed, also when the length
wraps around: no comma comes before the colon. -/
theorem parseLoop_lt {src : Bytes} (hsize : src.length < 2 ^ 64) (rest : Bytes) :
    ∀ {front : Bytes} {S : ParseState} {len off nslen : ℕ}, src = front ++ rest →
      comma ∉ front → len < 2 ^ 64 →
      parseLoop src rest front.length S len = .ok (off, nslen) → off + nslen < src.length := by
  induction rest with
  | nil =>
    intro front S len off nslen _ _ _ h
    cases h
  | cons c rest ih =>
    intro front S len off nslen hsrc hfront hlen h
    have hlonger : src = (front ++ [c]) ++ rest := by rw [hsrc, List.append_assoc]; rfl
    have hindex : front.length + 1 = (front ++ [c]).length := by simp
    have hnext : ∀ {S : ParseState} {len : ℕ}, c ≠ comma → len < 2 ^ 64 →
        parseLoop src rest (front.length + 1) S len = .ok (off, nslen) →
          off + nslen < src.length := by
      intro S len hc hlen h
      rw [hindex] at h
      refine ih hlonger ?_ hlen h
      rw [List.mem_append, List.mem_singleton]
      exact not_or.mpr ⟨hfront, hc.symm⟩
    unfold parseLoop at h
    split at h
    · rename_i hws
      refine hnext ?_ hlen h
      rintro rfl
      exact absurd hws.2 (by decide)
    · split at h
      · split at h
        · rename_i hdigit
          dsimp only at h
          split at h
          · cases h
          · refine hnext ?_ (Nat.mod_lt _ (Nat.two_pow_pos 64)) h
            rintro rfl
            exact absurd hdigit (by decide)
        · split at h
          · rename_i hcolon
            refine hnext ?_ hlen h
            rw [hcolon.2]
            decide
          · cases h
      · split at h
        · cases h
        · split at h
          · cases h
          · rename_i hinside hcomma
            rw [not_not] at hcomma
            simp only [Except.ok.injEq, Prod.mk.injEq] at h
            obtain ⟨rfl, rfl⟩ := h
            by_contra hlong
            have hwraps : (front.length + len) % 2 ^ 64 < front.length := by
              omega
            rw [hsrc, List.getD_eq_getElem?_getD, List.getElem?_append_left hwraps,
              List.getElem?_eq_getElem hwraps] at hcomma
            exact hfront (hcomma ▸ List.getElem_mem hwraps)

def Slice.Within (mem : Bytes) (out : Slice) : Prop := mem[out.off + out.len]? = some 0

variable {mem : Bytes} {out : Slice}

theorem Slice.Within.lt (h : out.Within mem) :
    out.off + out.len < mem.length := by
  by_contra hlong
  rw [Within, List.getElem?_eq_none (not_lt.mp hlong)] at h
  cases h

theorem Slice.Within.write (h : out.Within mem) {off : ℕ}
    (hoff : off < mem.length) : out.Within (write mem off [0]) := by
  unfold Within
  have hfits : off + [(0 : UInt8)].length ≤ mem.length := hoff
  rw [getElem?_write hfits]
  split
  · rename_i hsame
    rw [List.length_singleton] at hsame
    rw [show out.off + out.len - off = 0 by omega]
    rfl
  · exact h

theorem netstringParse_local (hsize : mem.length < 2 ^ 64) {src srclen : ℕ}
    (hsrc : src + srclen ≤ mem.length) :
    ∃ result after, after.length = mem.length ∧
      (∀ out : Slice, out.Within mem → out.Within after) ∧
      (∀ out, result = .ok out → out.Within after ∧ out.off + out.len < src + srclen) ∧
      ∀ tail, netstringParse (mem ++ tail) src srclen = (result, after ++ tail) := by
  unfold netstringParse
  have hlocal := slice_append_left hsrc
  cases hparse : parse (slice mem src srclen) with
  | error code =>
    refine ⟨.error code, mem, rfl, fun _ h => h, fun out h => (by cases h), fun tail => ?_⟩
    rw [hlocal, hparse]
  | ok found =>
    obtain ⟨nsoff, nslen⟩ := found
    have hlength : (slice mem src srclen).length = srclen := by
      rw [length_slice]
      omega
    have hlt : nsoff + nslen < srclen := by
      have hloop := @parseLoop_lt (slice mem src srclen) (by omega) _ [] .sws 0 nsoff nslen rfl
        List.not_mem_nil (Nat.two_pow_pos 64) hparse
      rwa [hlength] at hloop
    have hend : src + nsoff + nslen < mem.length := by omega
    have hfits : src + nsoff + nslen + [(0 : UInt8)].length ≤ mem.length := hend
    refine ⟨.ok ⟨src + nsoff, nslen⟩, write mem (src + nsoff + nslen) [0], length_write hfits,
      fun _ h => h.write hend, ?_, fun tail => ?_⟩
    · intro out hout
      cases hout
      refine ⟨?_, by dsimp only; omega⟩
      unfold Slice.Within
      rw [getElem?_write hfits, if_pos ⟨le_rfl, by simp⟩, Nat.sub_self]
      rfl
    · rw [hlocal, hparse]
      dsimp only
      rw [write_append_left hfits]

theorem stringAt_append_left (h : out.Within mem) (tail : Bytes) :
    stringAt (mem ++ tail) out.off = stringAt mem out.off := by
  have hlt := h.lt
  have hzero : (0 : UInt8) ∈ mem.drop out.off := by
    apply List.mem_of_getElem? (i := out.len)
    rw [List.getElem?_drop]
    exact h
  unfold stringAt
  rw [List.drop_append_of_le_length (by omega)]
  exact Library.Strings.cstring_append_left hzero tail

/-- What the iterator over pairs makes of a cursor, whatever follows its memory. -/
structure NextPair (cur : Cursor) (result : Except NetstringErr NetstringPair) (after : Cursor) :
    Prop where
  length_eq : after.mem.length = cur.mem.length
  bounded : after.data + after.datalen ≤ after.mem.length
  keeps : ∀ out : Slice, out.Within cur.mem → out.Within after.mem
  within : ∀ pair, result = .ok pair → pair.key.Within after.mem ∧ pair.value.Within after.mem
  run : ∀ tail, netstringNextPair { cur with mem := cur.mem ++ tail } =
    (result, { after with mem := after.mem ++ tail })

theorem netstringNextPair_local {cur : Cursor} (hsize : cur.mem.length < 2 ^ 64)
    (hcur : cur.data + cur.datalen ≤ cur.mem.length) :
    ∃ result after, NextPair cur result after := by
  obtain ⟨mem, data, datalen⟩ := cur
  dsimp only at hsize hcur
  by_cases hnone : datalen = 0
  · refine ⟨.error .errincomplete, ⟨mem, data, datalen⟩, rfl, hcur, fun _ h => h, ?_, ?_⟩
    · rintro pair ⟨⟩
    · intro tail
      exact if_pos hnone
  · obtain ⟨key, mem₁, hmem₁, hkeeps₁, hkey, hparse₁⟩ := netstringParse_local hsize hcur
    cases key with
    | error code =>
      refine ⟨.error code, ⟨mem₁, data, datalen⟩, hmem₁, ?_, hkeeps₁, ?_, ?_⟩
      · dsimp only
        omega
      · rintro pair ⟨⟩
      · intro tail
        unfold netstringNextPair
        rw [if_neg hnone, hparse₁]
    | ok key =>
      obtain ⟨hkeyWithin, hkeyEnd⟩ := hkey key rfl
      by_cases hlast : key.off + key.len + 1 - data ≥ datalen
      · refine ⟨.error .errincomplete, ⟨mem₁, data, datalen⟩, hmem₁, ?_, hkeeps₁, ?_, ?_⟩
        · dsimp only
          omega
        · rintro pair ⟨⟩
        · intro tail
          unfold netstringNextPair
          dsimp only
          rw [if_neg hnone, hparse₁]
          exact if_pos hlast
      · have hrest : data + (key.off + key.len + 1 - data) +
            (datalen - (key.off + key.len + 1 - data)) ≤ mem₁.length := by omega
        obtain ⟨value, mem₂, hmem₂, hkeeps₂, hvalue, hparse₂⟩ :=
          netstringParse_local (hmem₁ ▸ hsize) hrest
        cases value with
        | error code =>
          refine ⟨.error .errincomplete, ⟨mem₂, data, datalen⟩, hmem₂.trans hmem₁, ?_,
            fun out h => hkeeps₂ out (hkeeps₁ out h), ?_, ?_⟩
          · dsimp only
            omega
          · rintro pair ⟨⟩
          · intro tail
            unfold netstringNextPair
            rw [if_neg hnone, hparse₁]
            dsimp only
            rw [if_neg hlast, hparse₂]
        | ok value =>
          obtain ⟨hvalueWithin, hvalueEnd⟩ := hvalue value rfl
          refine ⟨.ok ⟨key, value⟩, ⟨mem₂, data + (value.off + value.len + 1 - data),
            datalen - (value.off + value.len + 1 - data)⟩, hmem₂.trans hmem₁, ?_,
            fun out h => hkeeps₂ out (hkeeps₁ out h), ?_, ?_⟩
          · dsimp only
            omega
          · rintro pair ⟨⟩
            exact ⟨hkeeps₂ key hkeyWithin, hvalueWithin⟩
          · intro tail
            unfold netstringNextPair
            rw [if_neg hnone, hparse₁]
            dsimp only
            rw [if_neg hlast, hparse₂]

end Yans.Util.Netstring
