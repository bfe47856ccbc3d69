import Mathlib.Algebra.Ring.Int.Defs
import Yans.Library.Strings

/-! `lib/net/tcpproto_types.c`: the protocols and their names. A protocol is its
number; a number without a name has the name of the unknown protocol. -/
namespace Yans.Net.TcpprotoTypes

open Library.Memory Library.Strings

/-- `names_`, by number from `TCPPROTO_UNKNOWN` on. -/
def names : List String :=
  ["unknown", "smtp", "smtps", "dns", "http", "https", "pop3", "pop3s", "imap", "imaps", "irc",
    "ircs", "ftp", "ftps", "ssh"]

def nbrOfTcpprotos : ℕ := names.length

def tcpprotoTypeToString (t : ℕ) : Bytes :=
  ascii (names.getD (if t ≥ nbrOfTcpprotos then 0 else t) "")

/-- The conversion of a `long` to the enumeration. -/
def toTcpprotoType (l : ℤ) : ℕ := (l % 2 ^ 32).toNat

theorem tcpprotoTypeToString_string (t : ℕ) :
    (∀ ch ∈ tcpprotoTypeToString t, ch ≠ 0) ∧ (tcpprotoTypeToString t).length ≤ 7 := by
  have hnames : ∀ name ∈ "" :: names, (∀ ch ∈ ascii name, ch ≠ 0) ∧ (ascii name).length ≤ 7 := by
    decide
  apply hnames
  rw [List.getD_eq_getElem?_getD]
  cases hname : names[if t ≥ nbrOfTcpprotos then 0 else t]? with
  | none => exact List.mem_cons_self
  | some name => exact List.mem_cons_of_mem _ (List.mem_of_getElem? hname)

end Yans.Net.TcpprotoTypes
