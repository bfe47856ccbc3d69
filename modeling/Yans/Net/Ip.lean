import Yans.Library.Intervals
import Yans.Util.Nalphaver

/-! `lib/net/ip.c`: addresses, blocks of addresses and lists of blocks. Words are
in host order, so that comparing the bytes of an address in memory is comparing
its words from the first on. `getaddrinfo` and `qsort` are not part of the
repository and are taken as parameters. -/
namespace Yans.Net.Ip

open Library Library.Memory Util

/-- `s6_addr32` -/
structure Ip6 where
  w0 : UInt32
  w1 : UInt32
  w2 : UInt32
  w3 : UInt32
deriving DecidableEq

/-- The two families of `ip_addr_t`; `scope` is the zone id. The port and the
flow information are zero throughout. -/
inductive IpAddr where
  | v4 (addr : UInt32)
  | v6 (addr : Ip6) (scope : UInt32)
deriving DecidableEq

structure IpBlock where
  first : IpAddr
  last : IpAddr
deriving DecidableEq

/-- `nblocks` entries of `blocks` are in use; `currAddr` is `none` for
`AF_UNSPEC`. -/
structure IpBlocks where
  blocks : List IpBlock
  nblocks : ℕ
  currBlock : ℕ
  currAddr : Option IpAddr
deriving DecidableEq

namespace IpBlocks

def entries (blks : IpBlocks) : List IpBlock := blks.blocks.take blks.nblocks

def empty : IpBlocks := ⟨[], 0, 0, none⟩

end IpBlocks

/-- `memcmp` of two words in network order. -/
def wordcmp (a b : UInt32) : ℤ := if a < b then -1 else if b < a then 1 else 0

def ip6cmp (a b : Ip6) : ℤ :=
  if a.w0 ≠ b.w0 then wordcmp a.w0 b.w0
  else if a.w1 ≠ b.w1 then wordcmp a.w1 b.w1
  else if a.w2 ≠ b.w2 then wordcmp a.w2 b.w2
  else wordcmp a.w3 b.w3

/-- IPv4 addresses are less than IPv6 addresses; zone ids are not compared. -/
def ipAddrCmp : IpAddr → IpAddr → ℤ
  | .v4 _, .v6 _ _ => -1
  | .v6 _ _, .v4 _ => 1
  | .v4 a, .v4 b => wordcmp a b
  | .v6 a _, .v6 b _ => ip6cmp a b

/-- One round of the loop over the words: the new word and the carry. -/
def addWord (word ext : UInt32) (acc : ℕ) : UInt32 × ℕ :=
  let acc := word.toNat + ext.toNat + acc
  (UInt32.ofNat acc, acc / 2 ^ 32)

def ipAddrAddIpv6 (a : Ip6) (n : Int32) : Ip6 :=
  let high : UInt32 := if n < 0 then 0xffffffff else 0
  let (w3, acc) := addWord a.w3 n.toUInt32 0
  let (w2, acc) := addWord a.w2 high acc
  let (w1, acc) := addWord a.w1 high acc
  let (w0, _) := addWord a.w0 high acc
  ⟨w0, w1, w2, w3⟩

def ipAddrAdd : IpAddr → Int32 → IpAddr
  | .v4 a, n => .v4 (a + n.toUInt32)
  | .v6 a scope, n => .v6 (ipAddrAddIpv6 a n) scope

/-- All but the lower `n` bits; the shift is computed modulo `2 ^ 32`. -/
def wordMask (n : ℕ) : UInt32 := ~~~((1 <<< UInt32.ofNat n) - 1)

def ip4Netmask (prefixlen : ℕ) : UInt32 :=
  if prefixlen = 0 then 0
  else if prefixlen > 32 then 0xffffffff
  else wordMask (32 - prefixlen)

/-- The word `i` of the netmask. -/
def ip6NetmaskWord (prefixlen i : ℕ) : UInt32 :=
  let prefixlen := if prefixlen > 128 then 128 else prefixlen
  let nset := prefixlen / 32
  let nsetmod := prefixlen % 32
  if i < nset then 0xffffffff
  else if nsetmod ≠ 0 ∧ i = nset then wordMask (32 - nsetmod)
  else 0

def ip6Netmask (prefixlen : ℕ) : Ip6 :=
  ⟨ip6NetmaskWord prefixlen 0, ip6NetmaskWord prefixlen 1, ip6NetmaskWord prefixlen 2,
    ip6NetmaskWord prefixlen 3⟩

def ip6Clearbits (a mask : Ip6) : Ip6 :=
  ⟨a.w0 &&& mask.w0, a.w1 &&& mask.w1, a.w2 &&& mask.w2, a.w3 &&& mask.w3⟩

def ip6Setbits (a mask : Ip6) : Ip6 :=
  ⟨a.w0 ||| ~~~mask.w0, a.w1 ||| ~~~mask.w1, a.w2 ||| ~~~mask.w2, a.w3 ||| ~~~mask.w3⟩

def ip4BlockMask (a : UInt32) (prefixlen : ℕ) : IpBlock :=
  ⟨.v4 (a &&& ip4Netmask prefixlen), .v4 (a ||| ~~~ip4Netmask prefixlen)⟩

def ip6BlockMask (a : Ip6) (scope : UInt32) (prefixlen : ℕ) : IpBlock :=
  ⟨.v6 (ip6Clearbits a (ip6Netmask prefixlen)) scope,
    .v6 (ip6Setbits a (ip6Netmask prefixlen)) scope⟩

/-- The blanks that `ip_addr` trims. -/
def isBlank (ch : UInt8) : Bool := ch = 32 || ch = 9 || ch = 13 || ch = 10

def isIpBlocksSep (ch : UInt8) : Bool :=
  ch = 13 || ch = 10 || ch = 9 || ch = 32 || ch = 44

def slash : UInt8 := 47

def dash : UInt8 := 45

/-- `YANS_IP_ADDR_MAXLEN` -/
def ipAddrMaxlen : ℕ := 512

section

-- the results in their order, `none` for one of another family; no list is an error
variable (getaddrinfo : Bytes → Option (List (Option IpAddr)))

def ipAddr (s : Bytes) : Option IpAddr :=
  let addrbuf := s.take (ipAddrMaxlen - 1)
  let start := addrbuf.dropWhile isBlank
  let start := start.takeWhile (fun ch => !isBlank ch)
  match getaddrinfo start with
  | none => none
  | some ai => ai.findSome? id

def ipBlockCidr (addrstr plenstr : Bytes) : Option IpBlock :=
  match ipAddr getaddrinfo addrstr with
  | none => none
  | some addr =>
    let (prefixlen, cptr) := Nalphaver.strtoul plenstr
    if cptr ≠ [] then none
    else
      match addr with
      | .v4 a => if prefixlen > 32 then none else some (ip4BlockMask a prefixlen)
      | .v6 a scope => if prefixlen > 128 then none else some (ip6BlockMask a scope prefixlen)

def sameFamily : IpAddr → IpAddr → Bool
  | .v4 _, .v4 _ => true
  | .v6 _ _, .v6 _ _ => true
  | _, _ => false

def ipBlockFromAddrs (a₁ a₂ : IpAddr) : Option IpBlock :=
  if ¬ sameFamily a₁ a₂ then none
  else if ipAddrCmp a₁ a₂ < 0 then some ⟨a₁, a₂⟩
  else some ⟨a₂, a₁⟩

def ipBlockRange (first last : Bytes) : Option IpBlock :=
  match ipAddr getaddrinfo first with
  | none => none
  | some a₁ =>
    match ipAddr getaddrinfo last with
    | none => none
    | some a₂ => ipBlockFromAddrs a₁ a₂

/-- What stands before and after the first `ch`, if there is one. -/
def strchr (s : Bytes) (ch : UInt8) : Option (Bytes × Bytes) :=
  if ch ∈ s then some (s.takeWhile (· ≠ ch), (s.dropWhile (· ≠ ch)).tail) else none

def ipBlockFromStr (s : Bytes) : Option IpBlock :=
  let addrbuf := s.take (ipAddrMaxlen - 1)
  match strchr addrbuf slash with
  | some (addr, plen) => ipBlockCidr getaddrinfo addr plen
  | none =>
    match strchr addrbuf dash with
    | some (first, last) => ipBlockRange getaddrinfo first last
    | none => (ipAddr getaddrinfo addrbuf).map fun addr => ⟨addr, addr⟩

/-- The block of the characters from `start` to `end_`, of which 255 are read. -/
def consBlock (blocks : List IpBlock) (s : Bytes) (start end_ : ℕ) : Option (List IpBlock) :=
  let len := end_ - start
  let len := if len ≥ 256 then 255 else len
  (ipBlockFromStr getaddrinfo ((s.drop start).take len)).map fun blk => blocks ++ [blk]

/-- The loop of `ip_blocks_init`: `addrstart` is the start of a block in state
`BLKS_FINDEND`. -/
def findBlocks (s : Bytes) (pos : ℕ) (addrstart : Option ℕ) (blocks : List IpBlock) :
    Bytes → Option (List IpBlock)
  | [] =>
    match addrstart with
    | none => some blocks
    | some start => consBlock getaddrinfo blocks s start pos
  | ch :: rest =>
    match addrstart with
    | none =>
      if isIpBlocksSep ch then findBlocks s (pos + 1) none blocks rest
      else findBlocks s (pos + 1) (some pos) blocks rest
    | some start =>
      if isIpBlocksSep ch then
        match consBlock getaddrinfo blocks s start pos with
        | none => none
        | some blocks => findBlocks s (pos + 1) none blocks rest
      else findBlocks s (pos + 1) (some start) blocks rest

end

def blockcmp (b₀ b₁ : IpBlock) : ℤ :=
  if ipAddrCmp b₀.first b₁.first = 0 then ipAddrCmp b₀.last b₁.last
  else ipAddrCmp b₀.first b₁.first

/-- What `qsort` promises: the order of blocks that compare equal is open. -/
structure Qsort where
  sort : List IpBlock → List IpBlock
  perm : ∀ blocks, (sort blocks).Perm blocks
  sorted : ∀ blocks, (sort blocks).Pairwise fun b₀ b₁ => blockcmp b₀ b₁ ≤ 0

def diffZones : IpAddr → IpAddr → Bool
  | .v6 _ scope₀, .v6 _ scope₁ => scope₀ ≠ scope₁
  | _, _ => false

def joins (curr next : IpBlock) : Bool :=
  !diffZones curr.first next.first && sameFamily curr.first next.first &&
    ipAddrCmp (ipAddrAdd curr.last 1) next.first ≥ 0

def absorb (curr next : IpBlock) : IpBlock :=
  if ipAddrCmp next.last curr.last > 0 then { curr with last := next.last } else curr

def compressBlocks (blocks : List IpBlock) (nblocks : ℕ) : List IpBlock × ℕ :=
  Compaction.compact joins absorb true blocks nblocks

/-- `none` if a block is not accepted. Allocation succeeds. -/
def ipBlocksInit (getaddrinfo : Bytes → Option (List (Option IpAddr))) (qsort : Qsort) (s : Bytes) :
    Option IpBlocks :=
  match findBlocks getaddrinfo s 0 none [] s with
  | none => none
  | some [] => some .empty
  | some blocks =>
    let (blocks, nblocks) := compressBlocks (qsort.sort blocks) blocks.length
    some ⟨blocks, nblocks, 0, none⟩

def ipBlocksReset (blks : IpBlocks) : IpBlocks := { blks with currBlock := 0, currAddr := none }

/-- An entry of the array; the index is always below `nblocks`. -/
def blockAt (blks : IpBlocks) (i : ℕ) : IpBlock := blks.blocks.getD i ⟨.v4 0, .v4 0⟩

/-- `none` at the end of the iteration, which also resets it. -/
def ipBlocksNext (blks : IpBlocks) : Option IpAddr × IpBlocks :=
  if blks.currBlock ≥ blks.nblocks then (none, ipBlocksReset blks)
  else
    let blk := blockAt blks blks.currBlock
    -- the first block with `AF_UNSPEC` starts; later blocks always have an address
    let addr := if blks.currBlock = 0 ∧ blks.currAddr = none then blk.first
      else blks.currAddr.getD blk.first
    if ipAddrCmp addr blk.last < 0 then
      (some addr, { blks with currAddr := some (ipAddrAdd addr 1) })
    else if blks.currBlock + 1 < blks.nblocks then
      (some addr, { blks with currBlock := blks.currBlock + 1,
                              currAddr := some (blockAt blks (blks.currBlock + 1)).first })
    else (some addr, { blks with currBlock := blks.currBlock + 1, currAddr := some addr })

end Yans.Net.Ip
