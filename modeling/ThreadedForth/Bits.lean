/-!
# Bits of integers

Integers of any size as two's complement numbers: below zero all but finitely many bits are set.
-/

namespace ThreadedForth.Bits

/-- The bits of the first number that the second one lacks. -/
def without (m n : Nat) : Nat := m ^^^ (m &&& n)

/-- The bits that both integers have. -/
def and : Int → Int → Int
  | .ofNat m, .ofNat n => .ofNat (m &&& n)
  | .ofNat m, .negSucc n => .ofNat (without m n)
  | .negSucc m, .ofNat n => .ofNat (without n m)
  | .negSucc m, .negSucc n => .negSucc (m ||| n)

/-- The bits that one of the two integers has. -/
def or : Int → Int → Int
  | .ofNat m, .ofNat n => .ofNat (m ||| n)
  | .ofNat m, .negSucc n => .negSucc (without n m)
  | .negSucc m, .ofNat n => .negSucc (without m n)
  | .negSucc m, .negSucc n => .negSucc (m &&& n)

/-- The bits that exactly one of the two integers has. -/
def xor : Int → Int → Int
  | .ofNat m, .ofNat n => .ofNat (m ^^^ n)
  | .ofNat m, .negSucc n => .negSucc (m ^^^ n)
  | .negSucc m, .ofNat n => .negSucc (m ^^^ n)
  | .negSucc m, .negSucc n => .ofNat (m ^^^ n)

/-- All bits of an integer turned round. -/
def complement (n : Int) : Int := -n - 1

/-- How many binary digits the magnitude of an integer has. -/
def length (n : Int) : Nat := if n = 0 then 0 else n.natAbs.log2 + 1

end ThreadedForth.Bits
