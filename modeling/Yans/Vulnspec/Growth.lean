import Yans.Vulnspec.Simulation

/-! How the program of a sketch grows. New nodes and strings go past the end,
the fields of a node are filled in one by one, and no byte is written twice; so
what has been written stays, and room that was given out reads as zero until
its owner fills it in. -/
namespace Yans.Vulnspec

open Library.Memory Library.Computations Library.Computations.Computation Util Util.Objtbl

def Sketch.memory (s : Sketch) : Bytes := (List.range s.len).map fun i => (s.written i).getD 0

@[simp] theorem Sketch.length_memory (s : Sketch) : s.memory.length = s.len := by
  simp [Sketch.memory]

theorem Sketch.byteAt_memory {s : Sketch} {i : ℕ} (hi : i < s.len) :
    byteAt s.memory i = (s.written i).getD 0 := by
  simp [Sketch.memory, byteAt, hi]

def Sketch.Holds (s : Sketch) (off : ℕ) (bytes : Bytes) : Prop :=
  ∀ k < bytes.length, s.written (off + k) = some (byteAt bytes k)

def Sketch.HasText (s : Sketch) (len val : ℕ) : Prop :=
  headerSize ≤ val ∧ 0 < len ∧ val + len ≤ s.len ∧ s.written (val + len - 1) = some 0

def Sketch.IsText (s : Sketch) (cval : Cvalue) : Prop :=
  ∃ len, cval.length = len % 2 ^ 32 ∧ s.HasText len cval.offset

structure Sound (s : Sketch) : Prop where
  low : headerSize ≤ s.len
  beyond : ∀ i, s.len ≤ i → s.written i = none
  header : s.Holds 0 header
  strings : ∀ entry ∈ s.strings, s.HasText entry.len entry.val

/-- What was written is kept, and room that was blank still is outside of a
region. -/
structure Grows (region : ℕ → Prop) (s s' : Sketch) : Prop where
  len_le : s.len ≤ s'.len
  kept : ∀ i byte, s.written i = some byte → s'.written i = some byte
  blank : ∀ i < s.len, s.written i = none → ¬ region i → s'.written i = none

def Nowhere (_ : ℕ) : Prop := False

def Anywhere (_ : ℕ) : Prop := True

def Blank (s : Sketch) (room : ℕ → Prop) : Prop := ∀ i, room i → i < s.len ∧ s.written i = none

section Growth

variable {region region' region'' : ℕ → Prop} {s s' s'' : Sketch}

theorem Grows.trans (h : Grows region s s') (h' : Grows region' s' s'')
    (hregion : ∀ i < s.len, region i ∨ region' i → region'' i) : Grows region'' s s'' where
  len_le := h.len_le.trans h'.len_le
  kept := fun i byte hbyte => h'.kept i byte (h.kept i byte hbyte)
  blank := by
    intro i hi hblank hout
    have hmiddle := h.blank i hi hblank fun hin => hout (hregion i hi (.inl hin))
    exact h'.blank i (hi.trans_le h.len_le) hmiddle fun hin => hout (hregion i hi (.inr hin))

theorem Grows.later (h : Grows region s s') (h' : Grows region' s' s'') : Grows Anywhere s s'' :=
  h.trans h' fun _ _ _ => trivial

theorem Grows.mono (h : Grows region s s') (hregion : ∀ i < s.len, region i → region' i) :
    Grows region' s s' :=
  { h with blank := fun i hi hblank hout => h.blank i hi hblank fun hin => hout (hregion i hi hin) }

theorem Sketch.Holds.grows {off : ℕ} {bytes : Bytes} (h : s.Holds off bytes)
    (hgrows : Grows region s s') : s'.Holds off bytes :=
  fun k hk => hgrows.kept _ _ (h k hk)

theorem Sketch.HasText.grows {len val : ℕ} (h : s.HasText len val) (hgrows : Grows region s s') :
    s'.HasText len val := by
  obtain ⟨hlow, hpos, hhigh, hzero⟩ := h
  exact ⟨hlow, hpos, hhigh.trans hgrows.len_le, hgrows.kept _ _ hzero⟩

theorem Sketch.IsText.grows {cval : Cvalue} (h : s.IsText cval) (hgrows : Grows region s s') :
    s'.IsText cval := by
  obtain ⟨len, hlength, htext⟩ := h
  exact ⟨len, hlength, htext.grows hgrows⟩

theorem Blank.grows {room : ℕ → Prop} (h : Blank s room) (hgrows : Grows region s s') :
    Blank s' fun i => room i ∧ ¬ region i := by
  rintro i ⟨hroom, hout⟩
  obtain ⟨hi, hblank⟩ := h i hroom
  exact ⟨hi.trans_le hgrows.len_le, hgrows.blank i hi hblank hout⟩

theorem Blank.sub {room room' : ℕ → Prop} (h : Blank s room) (hroom : ∀ i, room' i → room i) :
    Blank s room' :=
  fun i hi => h i (hroom i hi)

end Growth

/-! What the steps of a sketch do to its program -/

structure Lays (region : ℕ → Prop) (s s' : Sketch) : Prop extends Grows region s s' where
  sound : Sound s'

section Steps

variable {region region' region'' : ℕ → Prop} {s s' s'' : Sketch}

theorem Lays.trans (h : Lays region s s') (h' : Lays region' s' s'')
    (hregion : ∀ i < s.len, region i ∨ region' i → region'' i) : Lays region'' s s'' :=
  ⟨h.toGrows.trans h'.toGrows hregion, h'.sound⟩

theorem Lays.then (h : Lays Nowhere s s') (h' : Lays region s' s'') : Lays region s s'' :=
  h.trans h' fun _ _ hi => hi.resolve_left id

theorem Lays.fresh (h : Lays Nowhere s s') (h' : Lays region s' s'')
    (hfresh : ∀ i, region i → s.len ≤ i) : Lays Nowhere s s'' := by
  apply h.trans h'
  rintro i hi (hin | hin)
  · exact hin
  · exact absurd (hfresh i hin) (not_le.mpr hi)

theorem Blank.nowhere {room : ℕ → Prop} (h : Blank s room) (hlays : Lays Nowhere s s') :
    Blank s' room :=
  (h.grows hlays.toGrows).sub fun _ hi => ⟨hi, id⟩

theorem lays_same (hs : Sound s) (hlen : s'.len = s.len) (hwrites : s'.writes = s.writes)
    (hstrings : s'.strings = s.strings) : Lays Nowhere s s' := by
  have hwritten : s'.written = s.written := by
    funext i
    unfold Sketch.written
    rw [hwrites]
  constructor
  · refine ⟨hlen.ge, ?_, ?_⟩
    · intro i byte hbyte
      rwa [hwritten]
    · intro i _ hblank _
      rwa [hwritten]
  · refine ⟨hlen ▸ hs.low, ?_, ?_, ?_⟩
    · rw [hlen, hwritten]
      exact hs.beyond
    · unfold Sketch.Holds
      rw [hwritten]
      exact hs.header
    · unfold Sketch.HasText
      rw [hlen, hwritten, hstrings]
      exact hs.strings

theorem lays_readToken (hs : Sound s) {token : Token}
    (h : SketchM.readToken s = some (.ok token, s')) : Lays Nowhere s s' := by
  unfold SketchM.readToken at h
  split at h
  · cases h
    exact lays_same hs rfl rfl rfl
  · cases h
    exact lays_same hs rfl rfl rfl

theorem lays_take (hs : Sound s) {α : Type} {test : Word → Option α} {a : α}
    (h : SketchM.take test s = some (.ok a, s')) : Lays Nowhere s s' := by
  unfold SketchM.take at h
  split at h
  · simp at h
  · split at h
    · simp at h
    · cases h
      exact lays_same hs rfl rfl rfl

theorem len_readToken {token : Token} (h : SketchM.readToken s = some (.ok token, s')) :
    s'.len = s.len := by
  unfold SketchM.readToken at h
  split at h <;> cases h <;> rfl

theorem len_take {α : Type} {test : Word → Option α} {a : α}
    (h : SketchM.take test s = some (.ok a, s')) : s'.len = s.len := by
  unfold SketchM.take at h
  split at h
  · simp at h
  · split at h
    · simp at h
    · cases h
      rfl

section

variable (hs : Sound s)

include hs

variable {u : Unit}

theorem lays_setVtype {vtype : VersionType}
    (h : SketchM.setVtype vtype s = some (.ok u, s')) : Lays Nowhere s s' := by
  cases h
  exact lays_same hs rfl rfl rfl

theorem lays_versionRead (h : SketchM.versionRead s = some (.ok u, s')) : Lays Nowhere s s' := by
  cases h
  exact lays_same hs rfl rfl rfl

theorem lays_longer {len : ℕ} (hlen : s.len ≤ len) :
    Lays Nowhere s { s with len := len } := by
  constructor
  · exact ⟨hlen, fun _ _ hbyte => hbyte, fun _ _ hblank _ => hblank⟩
  · refine ⟨hs.low.trans hlen, fun i hi => hs.beyond i (hlen.trans hi), hs.header, ?_⟩
    intro entry hentry
    obtain ⟨hlow, hpos, hhigh, hzero⟩ := hs.strings entry hentry
    exact ⟨hlow, hpos, hhigh.trans hlen, hzero⟩

variable {off : ℕ}

theorem lays_alloc {n : ℕ} (h : SketchM.alloc n s = some (.ok off, s')) :
    Lays Nowhere s s' ∧ off = s.len ∧ off + n ≤ s'.len ∧ Blank s' (Range off n) := by
  have hroom := (Buf.le_alignOffset (s.len + n)).1
  unfold SketchM.alloc at h
  split at h
  · simp at h
  · obtain ⟨hoff, rfl⟩ := Prod.mk.inj (Option.some.inj h)
    cases hoff
    refine ⟨lays_longer hs (by omega), rfl, hroom, ?_⟩
    rintro i ⟨hlow, hhigh⟩
    exact ⟨hhigh.trans_le hroom, hs.beyond i hlow⟩

theorem lays_write {bytes : Bytes}
    (hblank : Blank s (Range off bytes.length)) :
    Lays (Range off bytes.length) s { s with writes := (off, bytes) :: s.writes } ∧
      ({ s with writes := (off, bytes) :: s.writes } : Sketch).Holds off bytes := by
  have hwritten := written_cons s off bytes
  have hgrows : Grows (Range off bytes.length) s { s with writes := (off, bytes) :: s.writes } := by
    refine ⟨le_rfl, ?_, ?_⟩
    · intro i byte hbyte
      rw [hwritten, if_neg]
      · exact hbyte
      · intro hin
        rw [(hblank i hin).2] at hbyte
        contradiction
    · intro i _ hnone hout
      rw [hwritten]
      exact (if_neg hout).trans hnone
  refine ⟨⟨hgrows, hs.low, ?_, hs.header.grows hgrows, ?_⟩, ?_⟩
  · intro i hi
    have hi : s.len ≤ i := hi
    rw [hwritten, if_neg]
    · exact hs.beyond i hi
    · intro hin
      have hbelow := (hblank i hin).1
      omega
  · exact fun entry hentry => (hs.strings entry hentry).grows hgrows
  · intro k hk
    rw [hwritten, if_pos (by omega), Nat.add_sub_cancel_left]

theorem lays_storeBytes {bytes : Bytes}
    (hblank : Blank s (Range off bytes.length))
    (h : SketchM.storeBytes off bytes s = some (.ok u, s')) :
    Lays (Range off bytes.length) s s' ∧ s'.Holds off bytes := by
  unfold SketchM.storeBytes at h
  split at h
  · cases h
    exact lays_write hs hblank
  · contradiction

theorem lays_storeWords {words : List ℕ}
    (hblank : Blank s (Range off (4 * words.length)))
    (h : SketchM.storeWords off words s = some (.ok u, s')) :
    Lays (Range off (4 * words.length)) s s' ∧ s'.Holds off (words.flatMap (littleEndian 4)) := by
  rw [← length_words] at hblank ⊢
  exact lays_storeBytes hs hblank h

end

theorem byteAt_keyOf_last (text : Bytes) : byteAt (keyOf text).str ((keyOf text).len - 1) = 0 := by
  simp [keyOf, byteAt]

variable {cval : Cvalue}

theorem lays_addString (hs : Sound s) {text : Bytes}
    (h : SketchM.addString text s = some (.ok cval, s')) : Lays Nowhere s s' ∧ s'.IsText cval := by
  have hpos := Nat.pos_of_ne_zero (keyOf_len_ne_zero text)
  have hroom := (Buf.le_alignOffset (s.len + (keyOf text).len)).1
  rw [addString_eq] at h
  split at h
  · simp at h
  · obtain ⟨hcval, rfl⟩ := Prod.mk.inj (Option.some.inj h)
    cases hcval
    have hlonger := @lays_longer _ hs (Buf.alignOffset (s.len + (keyOf text).len)) (by omega)
    have hblank : Blank { s with len := Buf.alignOffset (s.len + (keyOf text).len) }
        (Range s.len (keyOf text).str.length) := by
      rintro i ⟨hlow, hhigh⟩
      exact ⟨hhigh.trans_le hroom, hs.beyond i hlow⟩
    obtain ⟨hwrite, hholds⟩ := lays_write hlonger.sound hblank
    have htext : Sketch.HasText { s with
        len := Buf.alignOffset (s.len + (keyOf text).len)
        writes := (s.len, (keyOf text).str) :: s.writes } (keyOf text).len s.len := by
      refine ⟨hs.low, hpos, hroom, ?_⟩
      have hlast := hholds ((keyOf text).len - 1) (by rw [length_keyOf]; omega)
      rw [byteAt_keyOf_last, ← Nat.add_sub_assoc hpos] at hlast
      exact hlast
    have hgrows := hlonger.fresh hwrite fun i hi => hi.1
    refine ⟨⟨{ hgrows.toGrows with }, ?_⟩, _, rfl, htext⟩
    refine { hgrows.sound with strings := ?_ }
    intro entry hentry
    obtain rfl | hold := List.mem_cons.mp hentry
    · exact htext
    · exact hgrows.sound.strings entry (List.mem_filter.mp hold).1

theorem lays_intern (hs : Sound s) {text : Bytes}
    (h : SketchM.intern text s = some (.ok cval, s')) : Lays Nowhere s s' ∧ s'.IsText cval := by
  have hlooked : Lays Nowhere s { s with looked := text :: s.looked } := lays_same hs rfl rfl rfl
  cases hfind : s.strings.find? ((copyHashing bare).same (keyOf text)) with
  | some entry =>
    rw [intern_of_some hfind] at h
    obtain ⟨hcval, rfl⟩ := Prod.mk.inj (Option.some.inj h)
    cases hcval
    exact ⟨hlooked, entry.len, rfl, hs.strings entry (List.mem_of_find?_eq_some hfind)⟩
  | none =>
    rw [intern_of_none hfind] at h
    obtain ⟨hadd, htext⟩ := lays_addString hlooked.sound h
    exact ⟨hlooked.then hadd, htext⟩

theorem lays_loads (hs : Sound s) (h : SketchM.loads s = some (.ok cval, s')) :
    Lays Nowhere s s' ∧ s'.IsText cval := by
  obtain ⟨text, s₁, htext, h⟩ := bind_eq_ok h
  have hread := lays_take hs htext
  obtain ⟨hintern, hcval⟩ := lays_intern hread.sound h
  exact ⟨hread.then hintern, hcval⟩

structure Building (s : Sketch) (room : ℕ → Prop) (s' : Sketch) : Prop
    extends Lays Nowhere s s' where
  free : Blank s' room
  new : ∀ i, room i → s.len ≤ i

namespace Building

variable {room : ℕ → Prop}

theorem alloc (hs : Sound s) {n off : ℕ} (h : SketchM.alloc n s = some (.ok off, s')) :
    Building s (Range s.len n) s' ∧ off = s.len ∧ off + n ≤ s'.len := by
  obtain ⟨hlays, rfl, hroom, hblank⟩ := lays_alloc hs h
  exact ⟨⟨hlays, hblank, fun i hi => hi.1⟩, rfl, hroom⟩

theorem next (h : Building s room s') (h' : Lays Nowhere s' s'') : Building s room s'' :=
  ⟨h.toLays.then h', h.free.nowhere h', h.new⟩

theorem store (h : Building s room s') {off : ℕ} {words : List ℕ} {u : Unit}
    (hfield : ∀ i, Range off (4 * words.length) i → room i)
    (hrun : SketchM.storeWords off words s' = some (.ok u, s'')) :
    Lays (Range off (4 * words.length)) s' s'' ∧
      Building s (fun i => room i ∧ ¬ Range off (4 * words.length) i) s'' ∧
      s''.Holds off (words.flatMap (littleEndian 4)) := by
  obtain ⟨hstore, hholds⟩ := lays_storeWords h.sound (h.free.sub hfield) hrun
  refine ⟨hstore, ⟨h.toLays.fresh hstore fun i hi => h.new i (hfield i hi),
    h.free.grows hstore.toGrows, fun i hi => h.new i hi.1⟩, hholds⟩

end Building

end Steps

/-! What the program reads as from now on -/

/-- The property holds of the program, whatever is written to blank room below
an offset or past the end. -/
def Settled (s : Sketch) (low : ℕ) (P : Bytes → Prop) : Prop :=
  ∀ s', Sound s' → Grows (· < low) s s' → s'.len < 2 ^ 32 → P s'.memory

section Reading

variable {region : ℕ → Prop} {s s' : Sketch} {P Q : Bytes → Prop} {low : ℕ}

theorem Settled.mono (h : Settled s low P) {low' : ℕ} (hlow : low' ≤ low) : Settled s low' P := by
  intro s' hs' hgrows
  exact h s' hs' (hgrows.mono fun i _ hi => hi.trans_le hlow)

theorem Settled.grows (h : Settled s low P) (hgrows : Grows region s s')
    (hregion : ∀ i < s.len, region i → i < low) : Settled s' low P := by
  intro s'' hs'' hgrows'
  apply h s'' hs'' (hgrows.trans hgrows' _)
  rintro i hi (hin | hin)
  · exact hregion i hi hin
  · exact hin

theorem Settled.now (h : Settled s low P) (hs : Sound s) (hlen : s.len < 2 ^ 32) : P s.memory := by
  apply h s hs _ hlen
  exact ⟨le_rfl, fun _ _ hbyte => hbyte, fun _ _ hblank _ => hblank⟩

theorem Sketch.Holds.lt_len (hs : Sound s) {off : ℕ} {bytes : Bytes} (h : s.Holds off bytes) {k : ℕ}
    (hk : k < bytes.length) : off + k < s.len := by
  by_contra hbeyond
  have hbyte := h k hk
  rw [hs.beyond _ (not_lt.mp hbeyond)] at hbyte
  contradiction

theorem Sketch.Holds.byteAt_memory (hs : Sound s) {off : ℕ} {bytes : Bytes} (h : s.Holds off bytes)
    {k : ℕ} (hk : k < bytes.length) : byteAt s.memory (off + k) = byteAt bytes k := by
  rw [Sketch.byteAt_memory (h.lt_len hs hk), h k hk]
  rfl

theorem Sketch.Holds.read32 (hs : Sound s) {off : ℕ} {words : List ℕ}
    (h : s.Holds off (words.flatMap (littleEndian 4))) (hwords : ∀ n ∈ words, n < 2 ^ 32) (k : ℕ)
    {n : ℕ} (hk : words[k]? = some n) : read32 s.memory (off + 4 * k) = n := by
  refine (readWord_congr ?_).trans (readWord_flatMap (by simpa using hwords) k hk)
  intro i hi
  have hlt : k < words.length := (List.getElem?_eq_some_iff.mp hk).1
  rw [Nat.add_assoc]
  exact h.byteAt_memory hs (by rw [length_words]; omega)

theorem Blank.read32 {off : ℕ} (h : Blank s (Range off 4)) : read32 s.memory off = 0 := by
  apply read32_eq_zero
  intro i hi
  obtain ⟨hlen, hnone⟩ := h (off + i) ⟨Nat.le_add_right _ _, by omega⟩
  rw [Sketch.byteAt_memory hlen, hnone]
  rfl

theorem Sketch.IsText.stringOk (hlen : s.len < 2 ^ 32) {cval : Cvalue}
    (h : s.IsText cval) : StringOk s.memory cval := by
  obtain ⟨len, hlength, hlow, hpos, hhigh, hzero⟩ := h
  have hcut : cval.length = len := hlength.trans (Nat.mod_eq_of_lt (by omega))
  refine ⟨hlow, ?_, ?_⟩
  · rw [Sketch.length_memory, hcut]
    exact hhigh
  · have hlast : lastByte cval = cval.offset + len - 1 := by
      unfold lastByte
      rw [hcut]
      omega
    rw [hlast, Sketch.byteAt_memory (by omega), hzero]
    rfl

theorem Sound.hasHeader (hs : Sound s) : hasHeader s.memory := by
  have hroom : headerSize ≤ s.memory.length := (Sketch.length_memory s).symm ▸ hs.low
  refine ⟨hroom, @slice_eq_of_byteAt _ Vulnspec.header 0 ?_ ?_⟩
  · rw [Nat.zero_add]
    exact hroom
  · exact fun i hi => hs.header.byteAt_memory hs hi

end Reading

end Yans.Vulnspec
