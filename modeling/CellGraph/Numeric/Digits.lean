/-!
# Decimal digits

`digitsOf` writes a natural number in decimal, and `digitsValue` reads one.  Reading joins neighbouring digits to digits
of a larger base, round by round, so that long numbers are multiplied by numbers of about the same length.  The key
fact is `digitsValue_eq_foldl`: the value is what reading digit by digit from the left gives.
-/

namespace CellGraph

/-- The ten ASCII digits. -/
def isDigit (c : Char) : Bool := '0' ≤ c && c ≤ '9'

/-- The number that a decimal digit denotes. -/
def digitValue (c : Char) : Nat := c.toNat - '0'.toNat

/-- The decimal digits of a number, without leading zeros. -/
def digitsOf (n : Nat) : List Char := Nat.toDigits 10 n

/-- The number of decimal digits of a number; zero has none. -/
def digitCount (n : Nat) : Nat := if n = 0 then 0 else (digitsOf n).length

/-! ### Reading -/

/-- The number with some digits in base `b`, the last digit first. -/
def ofDigits (b : Nat) (ds : List Nat) : Nat := ds.foldr (fun d n => d + b * n) 0

/-- Pairs of digits in base `b`, the last digit first, joined to digits in base `b * b`, behind those joined before. -/
def joinPairs (b : Nat) : List Nat → List Nat → List Nat
  | d :: e :: ds, done => joinPairs b ds ((d + b * e) :: done)
  | ds, done => done.reverse ++ ds

/-- The number with some digits in base `b`, the last digit first, read after a number of rounds of joining. -/
def ofDigitsJoined : Nat → Nat → List Nat → Nat
  | 0, b, ds => ofDigits b ds
  | n + 1, b, ds => ofDigitsJoined n (b * b) (joinPairs b ds [])

/-- The number that a string of decimal digits denotes. -/
def digitsValue (ds : List Char) : Nat := ofDigitsJoined ds.length.log2 10 (ds.reverse.map digitValue)

/-! ### What is read -/

private theorem ofDigits_joinPairs (b : Nat) (ds done : List Nat) :
    ofDigits (b * b) (joinPairs b ds done) = done.foldl (fun n d => d + b * b * n) (ofDigits b ds) := by
  fun_induction joinPairs b ds done with
  | case1 d e ds done ih =>
    have hpair : d + b * e + b * b * ofDigits b ds = ofDigits b (d :: e :: ds) := by
      simp only [ofDigits, List.foldr_cons, Nat.mul_add, Nat.mul_assoc, Nat.add_assoc]
    rw [ih, List.foldl_cons, hpair]
  | case2 ds done hshort =>
    have hbase : ofDigits (b * b) ds = ofDigits b ds := by
      match ds with
      | [] => rfl
      | [d] => simp [ofDigits]
      | d :: e :: ds => exact absurd rfl (hshort d e ds)
    rw [← hbase, ofDigits, List.foldr_append, List.foldr_reverse]
    rfl

private theorem ofDigitsJoined_eq (n b : Nat) (ds : List Nat) : ofDigitsJoined n b ds = ofDigits b ds := by
  induction n generalizing b ds with
  | zero => rfl
  | succ n ih =>
    rw [ofDigitsJoined, ih, ofDigits_joinPairs]
    rfl

/-- The value of a string of digits is what reading them one by one from the left gives. -/
theorem digitsValue_eq_foldl (ds : List Char) : digitsValue ds = ds.foldl (fun n c => 10 * n + digitValue c) 0 := by
  rw [digitsValue, ofDigitsJoined_eq, ofDigits, List.map_reverse, List.foldr_reverse, List.foldl_map]
  congr
  funext n c
  exact Nat.add_comm _ _

end CellGraph
