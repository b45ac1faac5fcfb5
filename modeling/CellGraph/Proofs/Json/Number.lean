import CellGraph.Json.Printer
import CellGraph.Json.Token
import CellGraph.Proofs.Numeric.Decimal
import CellGraph.Proofs.Numeric.Digits

/-!
# Numbers in JSON texts

The text of a number is that of a numeral (`Number.text_numeral`), which is scanned back before anything that cannot
continue it (`Numeral.scan?_text`) and is read as the number (`Number.number?_numeral`).
-/

namespace CellGraph

open Float.Model (UnpackedFloat)
open Float.Model.UnpackedFloat (Sign)

/-! ### Texts of numerals -/

namespace Numeral

/-- The letter for a power of ten, its sign and its digits. -/
def exponentText (k : Int) : List Char := 'e' :: (if k < 0 then '-' else '+') :: digitsOf k.natAbs

/-- The text of a numeral without its sign. -/
def sizeText (n : Numeral) : List Char := n.whole ++ (n.fraction.elim [] ('.' :: ·) ++ n.exponent.elim [] exponentText)

def text (n : Numeral) : List Char := (if n.negative then ['-'] else []) ++ n.sizeText

/-- A numeral that JSON allows: there are digits before and after a point, and no zero before other digits. -/
structure Regular (n : Numeral) : Prop where
  whole : ∀ c ∈ n.whole, isDigit c = true
  whole_ne_nil : n.whole ≠ []
  no_leading_zero : n.whole.head? = some '0' → n.whole = ['0']
  fraction : ∀ ds ∈ n.fraction, ds ≠ [] ∧ ∀ c ∈ ds, isDigit c = true

end Numeral

namespace Json

/-- A rest of a text that cannot continue a numeral. -/
def Delimited (rest : List Char) : Prop := ∀ c ∈ rest.head?, isDigit c = false ∧ c ≠ '.' ∧ c ≠ 'e' ∧ c ≠ 'E'

theorem delimited_nil : Delimited [] := nofun

end Json

open Json (Delimited)

namespace Numeral

private theorem scanExponent?_text (k : Option Int) {rest : List Char} (hrest : Delimited rest) :
    scanExponent? digitsValue (k.elim [] exponentText ++ rest) = some (k, rest) := by
  have hdigit : ∀ c ∈ rest.head?, isDigit c = false := fun c hc => (hrest c hc).1
  rcases k with _ | k
  · rcases rest with _ | ⟨c, rest⟩
    · rfl
    · obtain ⟨-, -, he, hE⟩ := hrest c rfl
      simp [scanExponent?, he, hE]
  · have hsign : scanSign ((if k < 0 then '-' else '+') :: digitsOf k.natAbs ++ rest) =
        (decide (k < 0), digitsOf k.natAbs ++ rest) := by
      by_cases hk : k < 0
      · rw [if_pos hk, decide_eq_true hk]
        rfl
      · rw [if_neg hk, decide_eq_false hk]
        rfl
    have htake := takeWhile_run (isDigit_of_mem_digitsOf (n := k.natAbs)) hdigit
    have hdrop := dropWhile_run (isDigit_of_mem_digitsOf (n := k.natAbs)) hdigit
    show scanExponent? digitsValue ('e' :: ((if k < 0 then '-' else '+') :: digitsOf k.natAbs ++ rest)) = _
    simp only [scanExponent?, hsign, htake, hdrop, beq_self_eq_true, Bool.true_or, ↓reduceIte]
    split
    · exact absurd ‹_› (digitsOf_ne_nil _)
    · rw [digitsValue_digitsOf]
      by_cases hk : k < 0
      · simp only [hk, decide_true, ↓reduceIte, Option.some.injEq, Prod.mk.injEq, and_true]
        omega
      · simp only [hk, decide_false, Bool.false_eq_true, ↓reduceIte, Option.some.injEq, Prod.mk.injEq, and_true]
        omega

private theorem scanFraction_text {fraction : Option (List Char)}
    (hfraction : ∀ ds ∈ fraction, ∀ c ∈ ds, isDigit c = true)
    {rest : List Char} (hrest : ∀ c ∈ rest.head?, isDigit c = false ∧ c ≠ '.') :
    scanFraction (fraction.elim [] ('.' :: ·) ++ rest) = (fraction, rest) := by
  rcases fraction with _ | ds
  · rcases rest with _ | ⟨c, rest⟩
    · rfl
    · have hpoint := (hrest c rfl).2
      simp only [Option.elim_none, List.nil_append]
      unfold scanFraction
      split
      · rename_i heq
        exact absurd (List.cons.inj heq).1 hpoint
      · rfl
  · have hdigit : ∀ c ∈ rest.head?, isDigit c = false := fun c hc => (hrest c hc).1
    show (some ((ds ++ rest).takeWhile isDigit), (ds ++ rest).dropWhile isDigit) = _
    rw [takeWhile_run (hfraction ds rfl) hdigit, dropWhile_run (hfraction ds rfl) hdigit]

/-- A numeral without its sign is scanned before anything that cannot continue it. -/
theorem scanSize?_sizeText {n : Numeral} (hn : n.Regular) {rest : List Char} (hrest : Delimited rest) :
    Json.scanSize? n.negative (n.sizeText ++ rest) = some (n, rest) := by
  rw [sizeText, List.append_assoc, List.append_assoc]
  obtain ⟨negative, whole, fraction, exponent⟩ := n
  obtain ⟨hwhole, hnil, hzero, hfraction⟩ := hn
  have hexponent := scanExponent?_text exponent hrest
  generalize hafter : exponent.elim [] exponentText ++ rest = after at *
  have hhead : ∀ c ∈ after.head?, isDigit c = false ∧ c ≠ '.' := by
    rw [← hafter]
    rcases exponent with _ | k
    · exact fun c hc => ⟨(hrest c hc).1, (hrest c hc).2.1⟩
    · rintro c ⟨⟩
      decide
  have hscan := scanFraction_text (fun ds hds => (hfraction ds hds).2) hhead
  have hpoint : ∀ c ∈ (fraction.elim [] ('.' :: ·) ++ after).head?, isDigit c = false := by
    rcases fraction with _ | ds
    · exact fun c hc => (hhead c hc).1
    · rintro c ⟨⟩
      decide
  have htake := takeWhile_run hwhole hpoint
  have hdrop := dropWhile_run hwhole hpoint
  simp only [Json.scanSize?, htake, hdrop, hscan]
  split
  · exact absurd rfl hnil
  · exact absurd (hzero rfl) (by simp)
  · rcases fraction with _ | _ | ⟨d, ds⟩
    · simp only [hexponent]
    · exact absurd rfl (hfraction [] rfl).1
    · simp only [hexponent]

private theorem scan?_digit {c : Char} (hc : isDigit c = true) (cs : List Char) :
    Json.Token.scan? c cs = (Json.scanSize? false (c :: cs)).map fun r => (.numeral r.1, r.2) := by
  unfold Json.Token.scan?
  split
  case h_12 => rw [if_pos hc]
  all_goals exact absurd hc (by decide)

/-- A numeral is scanned before anything that cannot continue it. -/
theorem scan?_text {n : Numeral} (hn : n.Regular) {rest : List Char} (hrest : Delimited rest) :
    ∃ c cs, n.text ++ rest = c :: cs ∧ Json.isSpace c = false ∧ Json.Token.scan? c cs = some (.numeral n, rest) := by
  have hsize := scanSize?_sizeText hn hrest
  rcases hnegative : n.negative with _ | _
  · obtain ⟨c, cs, hcs⟩ : ∃ c cs, n.sizeText = c :: cs :=
      List.exists_cons_of_ne_nil (by simp [sizeText, hn.whole_ne_nil])
    have hc : isDigit c = true := by
      refine hn.whole c (List.mem_of_head? ?_)
      have hhead := congrArg List.head? hcs
      rwa [sizeText, List.head?_append_of_ne_nil _ hn.whole_ne_nil] at hhead
    have hspace : Json.isSpace c = false := by
      rw [Bool.eq_false_iff]
      intro hspace
      simp only [Json.isSpace, Bool.or_eq_true, beq_iff_eq] at hspace
      rcases hspace with ((rfl | rfl) | rfl) | rfl <;> exact absurd hc (by decide)
    rw [hnegative, hcs, List.cons_append] at hsize
    refine ⟨c, cs ++ rest, ?_, hspace, ?_⟩
    · rw [text, hnegative, hcs]
      rfl
    · rw [scan?_digit hc, hsize]
      rfl
  · rw [hnegative] at hsize
    refine ⟨'-', n.sizeText ++ rest, ?_, rfl, ?_⟩
    · rw [text, hnegative]
      rfl
    · exact congrArg (Option.map fun r => (Json.Token.numeral r.1, r.2)) hsize

end Numeral

/-! ### Numerals of numbers -/

/-- The numeral that is written for a positive decimal fraction: by position if the first digit is at a place from -5 to
15, and with an exponent otherwise. -/
def Decimal.numeral (negative : Bool) (d : Decimal) : Numeral :=
  let ds := digitsOf d.coefficient
  let k := (ds.length : Int) - 1 + d.exponent
  if -5 ≤ k ∧ k ≤ 15 then
    if k < 0 then ⟨negative, ['0'], some (List.replicate (-k - 1).toNat '0' ++ ds), none⟩
    else if ds.length ≤ k.toNat + 1 then
      ⟨negative, ds ++ List.replicate (k.toNat + 1 - ds.length) '0', some ['0'], none⟩
    else ⟨negative, ds.take (k.toNat + 1), some (ds.drop (k.toNat + 1)), none⟩
  else ⟨negative, ds.take 1, if ds.length ≤ 1 then none else some (ds.drop 1), some k⟩

namespace Decimal

/-- The text of a decimal fraction is that of its numeral. -/
theorem text_numeral (s : Sign) (d : Decimal) :
    (d.numeral (s == .negative)).text = signText s ++ Layout.json.decimalText d := by
  have hsign : (if s == .negative then ['-'] else []) = signText s := by cases s <;> rfl
  simp only [numeral, Layout.decimalText, Layout.json, decide_eq_true_eq]
  split
  · simp only [positionalText]
    split
    · rw [Numeral.text, Numeral.sizeText, hsign]
      simp
    · split
      · rw [Numeral.text, Numeral.sizeText, hsign]
        simp
      · rw [Numeral.text, Numeral.sizeText, hsign]
        simp
  · rw [Numeral.text, Numeral.sizeText, hsign, scientificText]
    split <;> simp [Numeral.exponentText] <;> split <;> rfl

theorem negative_numeral (negative : Bool) (d : Decimal) : (d.numeral negative).negative = negative := by
  simp only [numeral]
  split
  · split
    · rfl
    · split <;> rfl
  · rfl

/-- The numeral of a decimal fraction is not that of an integer. -/
theorem isSome_numeral (negative : Bool) (d : Decimal) :
    ((d.numeral negative).fraction.isSome || (d.numeral negative).exponent.isSome) = true := by
  simp only [numeral]
  split
  · split
    · rfl
    · split <;> rfl
  · exact Bool.or_true _

theorem isDigit_zero : ∀ c ∈ ['0'], isDigit c = true := by
  intro c hc
  rw [List.mem_singleton.1 hc]
  rfl

theorem regular_numeral (negative : Bool) {d : Decimal} (hd : 0 < d.coefficient) : (d.numeral negative).Regular := by
  have hdigits := isDigit_of_mem_digitsOf (n := d.coefficient)
  have hfirst := head?_digitsOf hd
  have hnil := digitsOf_ne_nil d.coefficient
  simp only [numeral]
  generalize digitsOf d.coefficient = ds at *
  have hzeros : ∀ n, ∀ c ∈ List.replicate n '0', isDigit c = true := by
    intro n c hc
    rw [List.eq_of_mem_replicate hc]
    rfl
  have htake : ∀ n, ds.take (n + 1) ≠ [] ∧ (ds.take (n + 1)).head? ≠ some '0' := by
    intro n
    rw [List.head?_take, if_neg (Nat.succ_ne_zero n)]
    exact ⟨by simp [hnil], hfirst⟩
  split
  · split
    · refine ⟨isDigit_zero, List.cons_ne_nil _ _, fun _ => rfl, ?_⟩
      rintro fs ⟨⟩
      exact ⟨by simp [hnil], List.forall_mem_append.2 ⟨hzeros _, hdigits⟩⟩
    · split
      · refine ⟨List.forall_mem_append.2 ⟨hdigits, hzeros _⟩, by simp [hnil], fun hzero => ?_, ?_⟩
        · rw [List.head?_append_of_ne_nil _ hnil] at hzero
          exact absurd hzero hfirst
        · rintro fs ⟨⟩
          exact ⟨List.cons_ne_nil _ _, isDigit_zero⟩
      · refine ⟨fun c hc => hdigits c (List.mem_of_mem_take hc), (htake _).1, fun hzero => absurd hzero (htake _).2, ?_⟩
        rintro fs ⟨⟩
        exact ⟨by rw [ne_eq, List.drop_eq_nil_iff]; omega, fun c hc => hdigits c (List.mem_of_mem_drop hc)⟩
  · refine ⟨fun c hc => hdigits c (List.mem_of_mem_take hc), (htake 0).1, fun hzero => absurd hzero (htake 0).2, ?_⟩
    intro fs hfs
    split at hfs
    · nomatch hfs
    · obtain rfl := Option.some.inj hfs
      exact ⟨by rw [ne_eq, List.drop_eq_nil_iff]; omega, fun c hc => hdigits c (List.mem_of_mem_drop hc)⟩

/-- The numeral of a decimal fraction has the size of the fraction, or it is a whole number that is counted in
tenths. -/
theorem parts_size_numeral (negative : Bool) {d : Decimal} (hd : 0 < d.coefficient) :
    (d.numeral negative).size.parts = d.parts := by
  obtain ⟨c, exponent⟩ := d
  have hvalue := digitsValue_digitsOf c
  have hbound := lt_ten_pow_length c
  have hpos : 0 < (digitsOf c).length := List.length_pos_of_ne_nil (digitsOf_ne_nil c)
  simp only [numeral]
  generalize digitsOf c = ds at *
  split
  · split
    · have hsize :
          digitsValue ('0' :: (List.replicate (-((ds.length : Int) - 1 + exponent) - 1).toNat '0' ++ ds)) = c := by
        rw [← List.cons_append, ← List.replicate_succ, digitsValue_replicate_append, hvalue]
      simp only [Numeral.size, Option.getD_some, Option.getD_none, List.cons_append, List.nil_append, hsize,
        List.length_append, List.length_replicate]
      congr
      omega
    · split
      · obtain ⟨z, rfl⟩ : ∃ z : Nat, exponent = z := ⟨exponent.toNat, by omega⟩
        have hzeros : ((ds.length : Int) - 1 + z).toNat + 1 - ds.length = z := by omega
        have hsize : digitsValue (ds ++ List.replicate z '0' ++ ['0']) = c * 10 ^ (z + 1) := by
          rw [List.append_assoc, ← List.replicate_succ', digitsValue_append_replicate, hvalue]
        have hsmall : c * 10 ^ z < 2 ^ 54 := by
          calc c * 10 ^ z < 10 ^ ds.length * 10 ^ z := Nat.mul_lt_mul_of_pos_right hbound (by positivity)
            _ = 10 ^ (ds.length + z) := (pow_add 10 _ _).symm
            _ ≤ 10 ^ 16 := Nat.pow_le_pow_right (by decide) (by omega)
            _ < 2 ^ 54 := by decide
        rw [← parts_tenths hd hsmall, ← hsize]
        simp only [Numeral.size, Option.getD_some, Option.getD_none, hzeros]
        rfl
      · simp only [Numeral.size, Option.getD_some, Option.getD_none, List.take_append_drop, hvalue, List.length_drop]
        congr
        omega
  · split
    · have hwhole : ds.take 1 = ds := List.take_of_length_le (by omega)
      simp only [Numeral.size, Option.getD_some, Option.getD_none, hwhole, List.append_nil, hvalue, List.length_nil]
      congr
      omega
    · simp only [Numeral.size, Option.getD_some, List.take_append_drop, hvalue, List.length_drop]
      congr
      omega

end Decimal

/-! ### Reading the numeral of a number -/

namespace Number

/-- The numeral that is written for a number. -/
def numeral : Number → Numeral
  | .int n _ => ⟨decide (n < 0), digitsOf n.natAbs, none, none⟩
  | .float x _ =>
    match Binary64.parts x with
    | .finite s m e _ => (Decimal.shortest .toEven m e).numeral (s == .negative)
    | .zero s => ⟨s == .negative, ['0'], some ['0'], none⟩
    -- a number is finite
    | _ => ⟨false, ['0'], none, none⟩

theorem text_numeral (n : Number) : n.numeral.text = n.text := by
  cases n with
  | int n h =>
    simp only [numeral, Number.text, Numeral.text, Numeral.sizeText, Option.elim_none, List.append_nil,
      decide_eq_true_eq]
  | float x h =>
    rcases Binary64.isFinite_iff.1 h with ⟨s, hparts⟩ | ⟨s, m, e, hm, hparts⟩
    · simp only [numeral, Number.text, Layout.write, hparts]
      cases s <;> rfl
    · simp only [numeral, Number.text, Layout.write, hparts]
      exact Decimal.text_numeral s _

theorem regular_numeral (n : Number) : n.numeral.Regular := by
  cases n with
  | int n h =>
    refine ⟨isDigit_of_mem_digitsOf, digitsOf_ne_nil _, fun hzero => ?_, nofun⟩
    rcases Nat.eq_zero_or_pos n.natAbs with habs | habs
    · simp only [numeral, habs]
      rfl
    · exact absurd hzero (head?_digitsOf habs)
  | float x h =>
    rcases Binary64.isFinite_iff.1 h with ⟨s, hparts⟩ | ⟨s, m, e, hm, hparts⟩
    · simp only [numeral, hparts]
      refine ⟨Decimal.isDigit_zero, List.cons_ne_nil _ _, fun _ => rfl, ?_⟩
      rintro fs ⟨⟩
      exact ⟨List.cons_ne_nil _ _, Decimal.isDigit_zero⟩
    · simp only [numeral, hparts]
      have hshortest := Decimal.parts_shortest .toEven (Binary64.canonical_of_parts hparts)
      exact Decimal.regular_numeral _ (Decimal.sign_of_parts hshortest).2

private theorem neg_pack {u : UnpackedFloat} (h : Binary64.parts (.ofModel (.pack u)) = u) :
    -Float.ofModel (.pack u) = .ofModel (.pack u.neg) :=
  congrArg (fun u : UnpackedFloat => Float.ofModel (.pack u.neg)) h

/-- The numeral of a double is read as that double. -/
private theorem toFloat_numeral {x : Float} (h : x.isFinite = true) : (numeral (.float x h)).toFloat = x := by
  refine Eq.trans ?_ (Binary64.ofModel_pack_parts x)
  rcases Binary64.isFinite_iff.1 h with ⟨s, hparts⟩ | ⟨s, m, e, hm, hparts⟩
  · simp only [numeral, hparts]
    have hsize :
        (Numeral.mk (s == .negative) ['0'] (some ['0']) none).size.toFloat = .ofModel (.pack (.zero .positive)) := by
      have hvalue : digitsValue (['0'] ++ ['0']) = 0 := by decide
      simp only [Numeral.size, Option.getD_some, hvalue, Decimal.toFloat, Decimal.parts, ↓reduceIte]
    rw [Numeral.toFloat, hsize]
    cases s with
    | positive => rfl
    | negative => exact neg_pack (Binary64.parts_pack_zero .positive)
  · have hcanonical := Binary64.canonical_of_parts hparts
    have hshortest := Decimal.parts_shortest .toEven hcanonical
    have hpos := (Decimal.sign_of_parts hshortest).2
    simp only [numeral, hparts]
    have hsize : ((Decimal.shortest .toEven m e).numeral (s == .negative)).size.toFloat =
        .ofModel (.pack (.finite .positive m e hm)) := by
      rw [Decimal.toFloat, Decimal.parts_size_numeral _ hpos, hshortest]
    rw [Numeral.toFloat, hsize, Decimal.negative_numeral]
    cases s with
    | positive => rfl
    | negative => exact neg_pack (Binary64.parts_pack_finite .positive hcanonical)

/-- The numeral of a number is read as that number. -/
theorem number?_numeral (n : Number) : n.numeral.number? = some n := by
  cases n with
  | int n h =>
    have hsize : (if decide (n < 0) = true then -(n.natAbs : Int) else n.natAbs) = n := by
      by_cases hn : n < 0
      · rw [if_pos (decide_eq_true hn)]
        omega
      · rw [if_neg (by simpa using hn)]
        omega
    have hzero : ¬ (decide (n < 0) && n.natAbs == 0) = true := by
      simp only [Bool.and_eq_true, decide_eq_true_eq, beq_iff_eq]
      omega
    simp only [Numeral.number?, numeral, digitsValue_digitsOf, Option.isSome_none, Bool.false_or, hzero, hsize,
      Bool.false_eq_true, ↓reduceIte, ofInt?, h, and_self, ↓reduceDIte, Option.some_or]
  | float x h =>
    have hpart : ((numeral (.float x h)).fraction.isSome || (numeral (.float x h)).exponent.isSome) = true := by
      rcases Binary64.isFinite_iff.1 h with ⟨s, hparts⟩ | ⟨s, m, e, hm, hparts⟩
      · simp only [numeral, hparts]
        rfl
      · simp only [numeral, hparts]
        exact Decimal.isSome_numeral _ _
    simp only [Numeral.number?, hpart, Bool.true_or, ↓reduceIte, toFloat_numeral h, Option.none_or, ofFloat?, h,
      ↓reduceDIte]

end Number

end CellGraph
