import Yans.Library.PercentEncoding
import Yans.Library.Tokens
import Yans.Net.IpNormal

/-! The tokens that `ip_blocks_init` accepts. A token is copied into a buffer of
256 bytes and the length of a prefix is left to `strtoul`, for which an empty
text is zero and blanks, a sign and any number of zeros may come first. -/
namespace Yans.Net.Ip

open Library Library.Memory Library.Decimal Library.Tokens Util

/-- Fields of at most four digits, and dots or colons between them. -/
inductive Fields : ℕ → Bytes → Prop where
  | last {field : Bytes} (hlen : field.length ≤ 4)
    (hdigits : ∀ c ∈ field, PercentEncoding.isHexDigit c = true) : Fields 1 field
  | more {n : ℕ} {field rest : Bytes} {sep : UInt8} (hlen : field.length ≤ 4)
    (hdigits : ∀ c ∈ field, PercentEncoding.isHexDigit c = true) (hsep : sep = 46 ∨ sep = 58)
    (hrest : Fields n rest) : Fields (n + 1) (field ++ sep :: rest)

def Unmarked (text : Bytes) : Prop := ∀ c ∈ text, isIpBlocksSep c = false ∧ c ≠ slash ∧ c ≠ dash

/-- The text of a numeric address. An IPv6 address has the most fields when it starts with
two colons and ends in an IPv4 address; a zone is the name of an interface. -/
inductive Numeric : Bytes → Prop where
  | mk {n : ℕ} {addr zone : Bytes} (hfields : Fields n addr) (hcount : n ≤ 11) (hne : addr ≠ [])
    (hlen : zone.length ≤ 16) (hzone : Unmarked zone) : Numeric (addr ++ zone)

theorem Fields.length_lt {n : ℕ} {text : Bytes} (h : Fields n text) : text.length < 5 * n := by
  induction h with
  | last hlen _ => omega
  | more hlen _ _ _ ih =>
    rw [List.length_append, List.length_cons]
    omega

theorem unmarked_of_isHexDigit {c : UInt8} (h : PercentEncoding.isHexDigit c = true) :
    isIpBlocksSep c = false ∧ c ≠ slash ∧ c ≠ dash := by
  refine ⟨?_, ?_, ?_⟩
  · rw [← Bool.not_eq_true]
    intro hsep
    simp only [isIpBlocksSep, Bool.or_eq_true, decide_eq_true_eq] at hsep
    obtain (((rfl | rfl) | rfl) | rfl) | rfl := hsep
    all_goals exact absurd h (by decide)
  · rintro rfl
    exact absurd h (by decide)
  · rintro rfl
    exact absurd h (by decide)

theorem Fields.unmarked {n : ℕ} {text : Bytes} (h : Fields n text) : Unmarked text := by
  induction h with
  | last _ hdigits => exact fun c hc => unmarked_of_isHexDigit (hdigits c hc)
  | more _ hdigits hsep _ ih =>
    refine List.forall_mem_append.mpr ⟨fun c hc => unmarked_of_isHexDigit (hdigits c hc),
      List.forall_mem_cons.mpr ⟨?_, ih⟩⟩
    obtain rfl | rfl := hsep
    · decide
    · decide

theorem Numeric.spec {text : Bytes} (h : Numeric text) :
    text ≠ [] ∧ Unmarked text ∧ text.length ≤ 126 := by
  obtain ⟨hfields, hcount, hne, hlen, hzone⟩ := h
  refine ⟨fun hnil => hne (List.append_eq_nil_iff.mp hnil).1,
    List.forall_mem_append.mpr ⟨hfields.unmarked, hzone⟩, ?_⟩
  have hlt := hfields.length_lt
  rw [List.length_append]
  omega

section

variable (getaddrinfo : Bytes → Option (List (Option IpAddr)))

def NumericOnly : Prop := ∀ text ai, getaddrinfo text = some ai → Numeric text

/-- An address, two addresses, or an address with a prefix length of one to three
digits. -/
structure TokenBlock (text : Bytes) (b : IpBlock) : Prop where
  block : BlockText getaddrinfo text b
  plen : ∀ left digits, text = left ++ slash :: digits → slash ∉ left → digits.length ≤ 3

structure TokensRead (s : Bytes) (blks : IpBlocks) : Prop where
  tokens : ∀ text, IsToken isIpBlocksSep s text → ∃ b, TokenBlock getaddrinfo text b
  contains : ∀ addr, (∃ b ∈ blks.entries, b.Contains addr) ↔
    ∃ text b, IsToken isIpBlocksSep s text ∧ TokenBlock getaddrinfo text b ∧ b.Contains addr

end

def PlainPlen (plen : Bytes) : Prop :=
  plen.length ≤ 3 ∧ ∃ c ∈ plen.head?, Nalphaver.isSpace c = false ∧ ¬(c = 45 ∨ c = 43)

def PlainToken (text : Bytes) : Prop :=
  ∀ left plen, text = left ++ slash :: plen → slash ∉ left → PlainPlen plen

theorem strchr_some {s left right : Bytes} {ch : UInt8} (h : strchr s ch = some (left, right)) :
    s = left ++ ch :: right ∧ ch ∉ left := by
  by_cases hmem : ch ∈ s
  · obtain ⟨before, after, rfl, hbefore⟩ := List.eq_append_cons_of_mem hmem
    rw [strchr_append hbefore] at h
    cases h
    exact ⟨rfl, hbefore⟩
  · rw [strchr_none hmem] at h
    exact absurd h (by simp)

theorem not_mem_of_strchr {s : Bytes} {ch : UInt8} (h : strchr s ch = none) : ch ∉ s := by
  intro hmem
  rw [strchr, if_pos hmem] at h
  exact absurd h (by simp)

theorem width_le (a : IpAddr) : width (realm a) ≤ 128 := by
  cases a with
  | v4 a => exact (by decide : 32 ≤ 128)
  | v6 a scope => exact Nat.le_refl 128

theorem PlainPlen.digits {plen : Bytes} {p : ℕ} (h : PlainPlen plen)
    (hread : Nalphaver.strtoul plen = (p, [])) (hp : p ≤ 128) :
    plen ≠ [] ∧ (∀ c ∈ plen, IsDigit c) ∧ value 0 plen = p := by
  obtain ⟨-, ch, hch, hspace, hsign⟩ := h
  have hne : plen ≠ [] := by
    rintro rfl
    exact absurd hch (by simp)
  obtain hnone | ⟨blanks, sign, digits, rest, rfl, hnumeral, hrest⟩ :=
    Nalphaver.strtoul_cases plen
  · rw [Nalphaver.strtoul_of_noDigit hnone, Prod.mk.injEq] at hread
    exact absurd hread.2 hne
  · rw [hnumeral.strtoul hrest, Prod.mk.injEq] at hread
    obtain ⟨hvalue, rfl⟩ := hread
    have hblanks : blanks = [] := by
      cases blanks with
      | nil => rfl
      | cons c blanks =>
        obtain rfl := Option.some.inj hch
        have hc := hnumeral.spaces c List.mem_cons_self
        rw [hspace] at hc
        exact absurd hc Bool.false_ne_true
    rw [hblanks, List.nil_append] at hch hne ⊢
    obtain rfl | rfl | rfl := hnumeral.signed
    · rw [List.nil_append, List.append_nil]
      refine ⟨hnumeral.nonempty, hnumeral.decimal, ?_⟩
      unfold Nalphaver.numeralValue at hvalue
      dsimp only at hvalue
      rw [if_neg (show ¬ ([] : Bytes) = [45] from nofun)] at hvalue
      split at hvalue
      · unfold Nalphaver.ulongMax at hvalue
        omega
      · exact hvalue
    · exact absurd (.inr (Option.some.inj hch).symm) hsign
    · exact absurd (.inl (Option.some.inj hch).symm) hsign

theorem plainPlen_of_digits {digits : Bytes} (hne : digits ≠ []) (hlen : digits.length ≤ 3)
    (hdigits : ∀ c ∈ digits, IsDigit c) : PlainPlen digits := by
  obtain ⟨c, rest, rfl⟩ := List.exists_cons_of_ne_nil hne
  have hc := hdigits c List.mem_cons_self
  exact ⟨hlen, c, rfl, Nalphaver.not_isSpace_of_isDigit hc, Nalphaver.not_isDigit_sign hc⟩

section

variable {getaddrinfo : Bytes → Option (List (Option IpAddr))}

variable {text : Bytes} {b : IpBlock}

theorem BlockText.slash_cases (h : BlockText getaddrinfo text b) :
    slash ∉ text ∨ ∃ left digits, text = left ++ slash :: digits ∧ slash ∉ left ∧ digits ≠ [] ∧
      ∀ c ∈ digits, IsDigit c := by
  cases h with
  | addr ha => exact .inl fun h => (ha.clean _ h).2.1 rfl
  | range ha hb _ =>
    left
    intro h
    obtain h | h := List.mem_append.mp h
    · exact (ha.clean _ h).2.1 rfl
    obtain h | h := List.mem_cons.mp h
    · exact absurd h (by decide)
    · exact (hb.clean _ h).2.1 rfl
  | plen ha hne hdigits _ _ =>
    exact .inr ⟨_, _, rfl, fun h => (ha.clean _ h).2.1 rfl, hne, hdigits⟩

theorem split_unique {ch : UInt8} {left left' right right' : Bytes}
    (h : left ++ ch :: right = left' ++ ch :: right') (hleft : ch ∉ left) (hleft' : ch ∉ left') :
    left = left' ∧ right = right' := by
  have hfirst := @strchr_append left right ch hleft
  rw [h, strchr_append hleft'] at hfirst
  cases hfirst
  exact ⟨rfl, rfl⟩

theorem TokenBlock.plain (h : TokenBlock getaddrinfo text b) :
    PlainToken text := by
  rintro left plen rfl hleft
  obtain hslash | ⟨left', digits, heq, hleft', hne, hdigits⟩ := h.block.slash_cases
  · exact absurd (by simp) hslash
  · obtain ⟨rfl, rfl⟩ := split_unique heq hleft hleft'
    exact plainPlen_of_digits hne (h.plen left plen rfl hleft) hdigits

theorem findBlocks_front {before front tail : Bytes} {blocks : List IpBlock} (hne : front ≠ [])
    (hunbroken : ∀ c ∈ front, isIpBlocksSep c = false)
    (htail : ∀ c ∈ tail.head?, isIpBlocksSep c = true) :
    findBlocks getaddrinfo (before ++ (front ++ tail)) before.length none blocks (front ++ tail) =
      (ipBlockFromStr getaddrinfo (front.take 255)).bind fun b =>
        findBlocks getaddrinfo (before ++ front ++ tail) (before ++ front).length none
          (blocks ++ [b]) tail := by
  rw [findBlocks_token hne hunbroken, ← List.append_assoc, List.length_append]
  cases tail with
  | nil =>
    rw [findBlocks, consBlock_token]
    cases ipBlockFromStr getaddrinfo (front.take 255) <;> rfl
  | cons c tail =>
    have hc := htail c rfl
    rw [findBlocks, if_pos hc, consBlock_token]
    cases ipBlockFromStr getaddrinfo (front.take 255) with
    | none => rfl
    | some b => rw [Option.map_some, Option.bind_some, findBlocks, if_pos hc]

theorem findBlocks_tokens (n : ℕ) : ∀ rest : Bytes, rest.length ≤ n →
    ∀ {before : Bytes} {blocks given : List IpBlock},
    findBlocks getaddrinfo (before ++ rest) before.length none blocks rest = some given →
    (∀ text, IsToken isIpBlocksSep rest text →
      ∃ b, ipBlockFromStr getaddrinfo (text.take 255) = some b) ∧
    ∀ b, b ∈ given ↔ b ∈ blocks ∨ ∃ text, IsToken isIpBlocksSep rest text ∧
      ipBlockFromStr getaddrinfo (text.take 255) = some b := by
  induction n with
  | zero =>
    intro rest hlen before blocks given h
    rw [List.length_eq_zero_iff.mp (Nat.le_zero.mp hlen), findBlocks, Option.some.injEq] at h
    rw [List.length_eq_zero_iff.mp (Nat.le_zero.mp hlen), h]
    simp [not_isToken_nil]
  | succ n ih =>
    intro rest hlen before blocks given h
    cases rest with
    | nil => exact ih [] (Nat.zero_le n) h
    | cons c rest =>
      by_cases hc : isIpBlocksSep c = true
      · have hpos : before.length + 1 = (before ++ [c]).length := by simp
        rw [findBlocks, if_pos hc, ← List.singleton_append, ← List.append_assoc, hpos] at h
        simp only [isToken_sep hc]
        exact ih rest (Nat.le_of_succ_le_succ hlen) h
      · rw [Bool.not_eq_true] at hc
        obtain ⟨front, tail, hsplit, hne, hunbroken, htail, hshort⟩ := exists_front hc rest
        rw [hsplit, findBlocks_front hne hunbroken htail] at h
        obtain ⟨b, hread, h⟩ := Option.bind_eq_some_iff.mp h
        obtain ⟨htokens, hgiven⟩ := ih tail (hshort.trans (Nat.le_of_succ_le_succ hlen)) h
        simp only [hsplit, isToken_append hne hunbroken htail]
        constructor
        · rintro text (rfl | htext)
          · exact ⟨b, hread⟩
          · exact htokens text htext
        · intro b'
          rw [hgiven b', List.mem_append, List.mem_singleton, or_assoc, @eq_comm _ b' b]
          simp only [or_and_right, exists_or, exists_eq_left, hread, Option.some.injEq]

variable (hnumeric : NumericOnly getaddrinfo)

include hnumeric

section

variable (hsep : ∀ c ∈ text, isIpBlocksSep c = false)

include hsep

theorem addrText_of_ipAddr {a : IpAddr} (hlen : text.length ≤ 511)
    (h : ipAddr getaddrinfo text = some a) :
    AddrText getaddrinfo text a ∧ text.length ≤ 126 := by
  rw [ipAddr_unblank (fun c hc => isBlank_of_not_sep (hsep c hc)) hlen] at h
  obtain ⟨ai, hread, hfind⟩ := Option.bind_eq_some_iff.mp h
  obtain ⟨hne, hclean, hshort⟩ := (hnumeric text ai hread).spec
  exact ⟨⟨hne, hclean, ai, hread, hfind⟩, hshort⟩

theorem ipBlockFromStr_cases (hlen : text.length ≤ 511)
    (h : ipBlockFromStr getaddrinfo text = some b) :
    (BlockText getaddrinfo text b ∧ slash ∉ text ∧ text.length < 255) ∨
      ∃ left plen a p, text = left ++ slash :: plen ∧ AddrText getaddrinfo left a ∧
        left.length ≤ 126 ∧ Nalphaver.strtoul plen = (p, []) ∧ p ≤ width (realm a) ∧
        IsPrefixBlock a p b := by
  have hbuf : text.take (ipAddrMaxlen - 1) = text := List.take_of_length_le hlen
  unfold ipBlockFromStr at h
  dsimp only at h
  rw [hbuf] at h
  split at h
  · rename_i left plen hslash
    obtain ⟨rfl, hleft⟩ := strchr_some hslash
    rw [List.length_append] at hlen
    right
    unfold ipBlockCidr at h
    split at h
    · exact absurd h (by simp)
    rename_i a haddr
    obtain ⟨ha, hshort⟩ := addrText_of_ipAddr hnumeric
      (fun c hc => hsep c (List.mem_append_left _ hc)) (by omega) haddr
    dsimp only at h
    split at h
    · exact absurd h (by simp)
    rename_i hall
    rw [not_not] at hall
    refine ⟨left, plen, a, (Nalphaver.strtoul plen).1, rfl, ha, hshort, ?_, ?_⟩
    · rw [← hall]
    cases a with
    | v4 a =>
      dsimp only at h
      split at h
      · exact absurd h (by simp)
      · rename_i hp
        obtain rfl := Option.some.inj h
        exact ⟨Nat.not_lt.mp hp, ip4BlockMask_isPrefixBlock (Nat.not_lt.mp hp)⟩
    | v6 a scope =>
      dsimp only at h
      split at h
      · exact absurd h (by simp)
      · rename_i hp
        obtain rfl := Option.some.inj h
        exact ⟨Nat.not_lt.mp hp, ip6BlockMask_isPrefixBlock (Nat.not_lt.mp hp)⟩
  · rename_i hslash
    left
    have hnoslash := not_mem_of_strchr hslash
    split at h
    · rename_i first last hdash
      obtain ⟨rfl, hfirst⟩ := strchr_some hdash
      rw [List.length_append, List.length_cons] at hlen ⊢
      unfold ipBlockRange at h
      split at h
      · exact absurd h (by simp)
      rename_i a₁ haddr₁
      split at h
      · exact absurd h (by simp)
      rename_i a₂ haddr₂
      obtain ⟨ha₁, hshort₁⟩ := addrText_of_ipAddr hnumeric
        (fun c hc => hsep c (List.mem_append_left _ hc)) (by omega) haddr₁
      obtain ⟨ha₂, hshort₂⟩ := addrText_of_ipAddr hnumeric
        (fun c hc => hsep c (List.mem_append_right _ (List.mem_cons_of_mem _ hc))) (by omega) haddr₂
      refine ⟨?_, hnoslash, by omega⟩
      unfold ipBlockFromAddrs at h
      split at h
      · exact absurd h (by simp)
      rename_i hfamily
      rw [not_not] at hfamily
      have hblock := BlockText.range ha₁ ha₂ hfamily
      simp only [ipAddrCmp_neg] at h
      split at h
      · rename_i hlt
        rw [if_pos hlt, Option.some.inj h] at hblock
        exact hblock
      · rename_i hge
        rw [if_neg hge, Option.some.inj h] at hblock
        exact hblock
    · obtain ⟨a, haddr, rfl⟩ := Option.map_eq_some_iff.mp h
      obtain ⟨ha, hshort⟩ := addrText_of_ipAddr hnumeric hsep hlen haddr
      exact ⟨.addr ha, hnoslash, by omega⟩

theorem tokenBlock_of_plain (h : ipBlockFromStr getaddrinfo (text.take 255) = some b)
    (hplain : PlainToken text) :
    TokenBlock getaddrinfo text b ∧ text.length ≤ 255 := by
  have hcut : (text.take 255).length ≤ 255 := List.length_take_le 255 text
  have hwhole : text.length ≤ 255 → text.take 255 = text := List.take_of_length_le
  obtain ⟨hblock, hslash, hlen⟩ | ⟨left, plen, a, p, htext, ha, hshort, hread, hp, hb⟩ :=
    ipBlockFromStr_cases hnumeric (fun c hc => hsep c (List.mem_of_mem_take hc)) (by omega) h
  · have hlen' : text.length ≤ 255 := by
      rw [List.length_take] at hlen
      omega
    rw [hwhole hlen'] at hblock hslash
    refine ⟨⟨hblock, ?_⟩, hlen'⟩
    rintro left digits rfl
    exact absurd (by simp) hslash
  · have hclean : slash ∉ left := fun h => (ha.clean _ h).2.1 rfl
    -- the buffer would hold more than three characters of the prefix length
    have hlen' : text.length ≤ 255 := by
      by_contra hlong
      have hlength : (text.take 255).length = 255 := by
        rw [List.length_take]
        omega
      have hsplit : text = left ++ slash :: (plen ++ text.drop 255) := by
        have hall := List.take_append_drop 255 text
        rw [htext, List.append_assoc, List.cons_append] at hall
        exact hall.symm
      have hplen := (hplain left _ hsplit hclean).1
      rw [htext, List.length_append, List.length_cons] at hlength
      rw [List.length_append] at hplen
      omega
    rw [hwhole hlen'] at htext
    have hplen := hplain left plen htext hclean
    have hwidth : width (realm a) ≤ 128 := width_le a
    obtain ⟨hne, hdigits, hvalue⟩ := hplen.digits hread (by omega)
    rw [← hvalue] at hp hb
    rw [htext]
    refine ⟨⟨.plen ha hne hdigits hp hb, ?_⟩, htext ▸ hlen'⟩
    intro left' digits heq hleft'
    rw [← (split_unique heq hclean hleft').2]
    exact hplen.1

end

/-- The code reads the tokens as what they are exactly when what follows the first
slash of a token is one to three characters and starts with no blank or sign. -/
theorem ip_blocks_init_tokens_iff (qsort : Qsort) {s : Bytes} {blks : IpBlocks}
    (h : ipBlocksInit getaddrinfo qsort s = some blks) :
    TokensRead getaddrinfo s blks ↔ ∀ text, IsToken isIpBlocksSep s text → PlainToken text := by
  obtain ⟨given, hfound⟩ : ∃ given, findBlocks getaddrinfo s 0 none [] s = some given := by
    unfold ipBlocksInit at h
    split at h
    · exact absurd h (by simp)
    · exact ⟨[], by assumption⟩
    · exact ⟨_, by assumption⟩
  obtain ⟨blks', hinit, hentries, -⟩ := ipBlocksInit_of_findBlocks qsort hfound
  rw [hinit, Option.some.injEq] at h
  rw [h] at hentries
  obtain ⟨htokens, hgiven⟩ := @findBlocks_tokens getaddrinfo s.length s le_rfl [] [] given hfound
  have hcontains := (stored_spec qsort (ok_of_findBlocks s hfound (by simp))).2.2.1
  constructor
  · intro hread text htext
    obtain ⟨b, hb⟩ := hread.tokens text htext
    exact hb.plain
  · intro hplain
    have hblock : ∀ text b, IsToken isIpBlocksSep s text →
        ipBlockFromStr getaddrinfo (text.take 255) = some b →
        TokenBlock getaddrinfo text b ∧ text.length ≤ 255 :=
      fun text b htext hb => tokenBlock_of_plain hnumeric htext.unbroken hb (hplain text htext)
    constructor
    · intro text htext
      obtain ⟨b, hb⟩ := htokens text htext
      exact ⟨b, (hblock text b htext hb).1⟩
    · intro addr
      rw [hentries, hcontains addr]
      constructor
      · rintro ⟨b, hb, haddr⟩
        obtain hnil | ⟨text, htext, hread⟩ := (hgiven b).mp hb
        · exact absurd hnil (by simp)
        · exact ⟨text, b, htext, (hblock text b htext hread).1, haddr⟩
      · rintro ⟨text, b, htext, hb, haddr⟩
        obtain ⟨b', hread⟩ := htokens text htext
        have hlen := (hblock text b' htext hread).2
        have hread' := hread
        rw [List.take_of_length_le hlen, ipBlockFromStr_of_text hb.block (by omega),
          Option.some.injEq] at hread
        rw [hread] at haddr
        exact ⟨b', (hgiven b').mpr (.inr ⟨text, htext, hread'⟩), haddr⟩

end

theorem numericOnly_oneHost : NumericOnly (lookup oneHost) := by
  intro text ai hai
  obtain ⟨addr, haddr, -⟩ := Option.map_eq_some_iff.mp hai
  obtain ⟨before, after, htable, -⟩ := List.lookup_eq_some_iff.mp haddr
  have hmem : (text, addr) ∈ oneHost := by simp [htable]
  cases List.mem_singleton.mp hmem
  exact @Numeric.mk 4 hostOne [] (@Fields.more 3 [49, 48] [48, 46, 48, 46, 49] 46 (by decide)
    (by decide) (.inl rfl) (@Fields.more 2 [48] [48, 46, 49] 46 (by decide) (by decide) (.inl rfl)
      (@Fields.more 1 [48] [49] 46 (by decide) (by decide) (.inl rfl)
        (.last (by decide) (by decide))))) (by decide) (List.cons_ne_nil _ _) (by decide) nofun

/-- The text "10.0.0.1/8". -/
theorem ip_blocks_init_tokens_iff_8 :
    ∃ blks, ipBlocksInit (lookup oneHost) stableQsort (hostOne ++ [47, 56]) = some blks ∧
      (TokensRead (lookup oneHost) (hostOne ++ [47, 56]) blks ↔
      ∀ text, IsToken isIpBlocksSep (hostOne ++ [47, 56]) text → PlainToken text) := by
  have hfound : findBlocks (lookup oneHost) (hostOne ++ [47, 56]) 0 none []
      (hostOne ++ [47, 56]) = some [⟨.v4 0x0a000000, .v4 0x0affffff⟩] := by decide
  obtain ⟨blks, hinit, -⟩ := ipBlocksInit_of_findBlocks stableQsort hfound
  exact ⟨blks, hinit, ip_blocks_init_tokens_iff numericOnly_oneHost stableQsort hinit⟩

/-- The text "10.0.0.1/" is read as the block of all IPv4 addresses. -/
theorem empty_prefix_length_accepted :
    ∃ blks, ipBlocksInit (lookup oneHost) stableQsort (hostOne ++ [47]) = some blks ∧
      blks.entries = [⟨.v4 0, .v4 0xffffffff⟩] ∧
      ¬ TokensRead (lookup oneHost) (hostOne ++ [47]) blks := by
  have hfound : findBlocks (lookup oneHost) (hostOne ++ [47]) 0 none []
      (hostOne ++ [47]) = some [⟨.v4 0, .v4 0xffffffff⟩] := by decide
  obtain ⟨blks, hinit, hentries, -⟩ := ipBlocksInit_of_findBlocks stableQsort hfound
  refine ⟨blks, hinit, hentries.trans rfl, ?_⟩
  intro hread
  have htoken : IsToken isIpBlocksSep (hostOne ++ [47]) (hostOne ++ [47]) :=
    ⟨by decide, by decide, [], [], rfl, nofun, nofun⟩
  obtain ⟨b, hb⟩ := hread.tokens _ htoken
  obtain ⟨-, c, hc, -⟩ := hb.plain hostOne [] rfl (by decide)
  exact absurd hc (by simp)

end Yans.Net.Ip
