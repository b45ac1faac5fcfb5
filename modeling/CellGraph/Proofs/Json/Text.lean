import CellGraph.Proofs.Json.Number

/-!
# Tokens of JSON texts

The tokens of a value (`Value.tokens`) are what its text is cut into, in the compact form and in the spread form alike
(`Value.scanAll?_write`): blanks separate tokens and are no tokens.  An escaped string is scanned as its pieces
(`scanString?_write`), and these tell the string (`StringPiece.text?_pieces`).
-/

namespace CellGraph

namespace Json

/-! ### Strings -/

namespace StringPiece

/-- What a character of a string is scanned as: a control character that has no short escape is written by its code. -/
def ofChar (c : Char) : StringPiece :=
  if c.toNat < 0x20 ∧ c.toNat ∉ [0x08, 0x09, 0x0A, 0x0C, 0x0D] then .unit c.toNat else .char c

def pieces (s : String) : List StringPiece := s.toList.map ofChar

private theorem chars?_ofChar (c : Char) (ps : List StringPiece) (done : List Char) :
    chars? (ofChar c :: ps) done = chars? ps (c :: done) := by
  unfold ofChar
  split
  · rename_i hc
    have hupper : ¬ (decide (0xD800 ≤ c.toNat) && decide (c.toNat < 0xDC00)) = true := by
      simp only [Bool.and_eq_true, decide_eq_true_eq]
      omega
    have hlower : ¬ (decide (0xDC00 ≤ c.toNat) && decide (c.toNat < 0xE000)) = true := by
      simp only [Bool.and_eq_true, decide_eq_true_eq]
      omega
    rw [chars?.eq_def]
    simp only [hupper, hlower, Bool.false_eq_true, ↓reduceIte, Char.ofNat_toNat]
  · rfl

/-- The pieces of a string tell the string. -/
theorem text?_pieces (s : String) : text? (pieces s) = some s := by
  have hchars : ∀ (cs done : List Char), chars? (cs.map ofChar) done = some (done.reverse ++ cs) := by
    intro cs
    induction cs with
    | nil => exact fun done => congrArg some (List.append_nil _).symm
    | cons c cs ih =>
      intro done
      rw [List.map_cons, chars?_ofChar, ih, List.reverse_cons, List.append_assoc, List.singleton_append]
  rw [text?, pieces, hchars]
  exact congrArg some String.ofList_toList

end StringPiece

open StringPiece (ofChar pieces)

private theorem hexUnit?_hexDigit : ∀ n < 0x20, hexUnit? '0' '0' (hexDigit (n / 16)) (hexDigit n) = some n := by decide

/-- A character in a string is scanned as one piece. -/
private theorem scanString?_escapeChar (c : Char) (cs : List Char) (done : List StringPiece) :
    scanString? (escapeChar c ++ cs) done = scanString? cs (ofChar c :: done) := by
  have hchar : ∀ {d : Char}, c.toNat = d.toNat → c = d := fun h => Char.toNat_inj.1 h
  unfold escapeChar
  split
  · obtain rfl : c = '"' := hchar ‹_›
    rfl
  · obtain rfl : c = '\\' := hchar ‹_›
    rfl
  · obtain rfl : c = '\x08' := hchar ‹_›
    rfl
  · obtain rfl : c = '\t' := hchar ‹_›
    rfl
  · obtain rfl : c = '\n' := hchar ‹_›
    rfl
  · obtain rfl : c = '\x0c' := hchar ‹_›
    rfl
  · obtain rfl : c = '\r' := hchar ‹_›
    rfl
  · rename_i hquote hslash h8 h9 hA hC hD
    by_cases hlow : c.toNat < 0x20
    · have hunit : ofChar c = .unit c.toNat := by
        rw [ofChar, if_pos]
        simp only [List.mem_cons, List.not_mem_nil, or_false, not_or]
        exact ⟨hlow, h8, h9, hA, hC, hD⟩
      rw [if_pos hlow, hunit]
      show scanString? ('\\' :: 'u' :: '0' :: '0' :: hexDigit (c.toNat / 16) :: hexDigit c.toNat :: cs) done = _
      rw [scanString?, hexUnit?_hexDigit _ hlow]
    · have hself : ofChar c = .char c := by
        rw [ofChar, if_neg]
        exact fun h => hlow h.1
      rw [if_neg hlow, hself]
      show scanString? (c :: cs) done = _
      rw [scanString?, if_neg hlow]
      · rintro rfl
        exact hquote rfl
      · rintro _ _ _ _ _ rfl _
        exact hslash rfl
      · rintro _ _ rfl _
        exact hslash rfl

theorem scanString?_write (s : String) (rest : List Char) :
    scanString? (s.toList.flatMap escapeChar ++ '"' :: rest) [] = some (pieces s, rest) := by
  have hchars : ∀ (cs : List Char) (done : List StringPiece),
      scanString? (cs.flatMap escapeChar ++ '"' :: rest) done = some (done.reverse ++ cs.map ofChar, rest) := by
    intro cs
    induction cs with
    | nil => exact fun done => congrArg (fun ps => some (ps, rest)) (List.append_nil _).symm
    | cons c cs ih =>
      intro done
      rw [List.flatMap_cons, List.append_assoc, scanString?_escapeChar, ih, List.reverse_cons, List.append_assoc,
        List.singleton_append, List.map_cons]
  exact hchars s.toList []

/-! ### Blanks and tokens -/

namespace Token

theorem scanAll?_blank {c : Char} (hc : isSpace c = true) (cs : List Char) (done : List Token) :
    scanAll? (c :: cs) done = scanAll? cs done := by
  rw [scanAll?, if_pos hc]

theorem scanAll?_blanks {blanks : List Char} (hblanks : ∀ c ∈ blanks, isSpace c = true) (cs : List Char)
    (done : List Token) : scanAll? (blanks ++ cs) done = scanAll? cs done := by
  induction blanks with
  | nil => rfl
  | cons c blanks ih =>
    rw [List.forall_mem_cons] at hblanks
    rw [List.cons_append, scanAll?_blank hblanks.1, ih hblanks.2]

theorem scanAll?_token {c : Char} {cs rest : List Char} {t : Token} (hc : isSpace c = false)
    (ht : scan? c cs = some (t, rest)) (done : List Token) : scanAll? (c :: cs) done = scanAll? rest (t :: done) := by
  rw [scanAll?, if_neg (by simp [hc])]
  split
  · rename_i heq
    obtain ⟨rfl, rfl⟩ := Prod.mk.inj (Option.some.inj (heq.symm.trans ht))
    rfl
  · rename_i heq
    rw [ht] at heq
    simp at heq

end Token

open Token (scanAll?_token)

theorem scanAll?_writeString (s : String) (rest : List Char) (done : List Token) :
    Token.scanAll? (writeString s rest) done = Token.scanAll? rest (.string (pieces s) :: done) := by
  refine scanAll?_token rfl ?_ done
  show (scanString? (s.toList.flatMap escapeChar ++ '"' :: rest) []).map _ = _
  rw [scanString?_write]
  rfl

end Json

open Json (Token Delimited)
open Json.StringPiece (pieces)

/-- A spacing with nothing but blanks. -/
structure Spacing.Blank (sp : Spacing) : Prop where
  lineBreak : ∀ level, ∀ c ∈ sp.lineBreak level, Json.isSpace c = true
  afterColon : ∀ c ∈ sp.afterColon, Json.isSpace c = true

theorem Spacing.blank_compact : Spacing.compact.Blank := ⟨fun _ => nofun, nofun⟩

theorem Spacing.blank_pretty : Spacing.pretty.Blank := by
  refine ⟨fun level => List.forall_mem_cons.2 ⟨rfl, fun c hc => ?_⟩, fun c hc => ?_⟩
  · rw [List.eq_of_mem_replicate hc]
    rfl
  · rw [List.mem_singleton.1 hc]
    rfl

namespace Value

mutual

/-- The tokens of the text of a value. -/
def tokens : Value → List Token
  | .null => [.null]
  | .bool b => [.bool b]
  | .number n => [.numeral n.numeral]
  | .string s => [.string (pieces s)]
  | .array [] => [.openArray, .closeArray]
  | .array (v :: vs) => .openArray :: (tokens v ++ (itemTokens vs ++ [.closeArray]))
  | .object .nil => [.openObject, .closeObject]
  | .object (.cons k v _ fs) =>
    .openObject :: .string (pieces k) :: .colon :: (tokens v ++ (memberTokens fs ++ [.closeObject]))

/-- The tokens of the items of an array after the first one. -/
def itemTokens : List Value → List Token
  | [] => []
  | v :: vs => .comma :: (tokens v ++ itemTokens vs)

/-- The tokens of the members of an object after the first one. -/
def memberTokens {used : List String} : Members used → List Token
  | .nil => []
  | .cons k v _ fs => .comma :: .string (pieces k) :: .colon :: (tokens v ++ memberTokens fs)

end

variable {sp : Spacing}

private theorem delimited_cons {c : Char} (hc : isDigit c = false ∧ c ≠ '.' ∧ c ≠ 'e' ∧ c ≠ 'E') (rest : List Char) :
    Delimited (c :: rest) := by
  rintro d ⟨⟩
  exact hc

private theorem delimited_lineBreak (hsp : sp.Blank) (level : Nat) {c : Char}
    (hc : isDigit c = false ∧ c ≠ '.' ∧ c ≠ 'e' ∧ c ≠ 'E') (rest : List Char) :
    Delimited (sp.lineBreak level ++ c :: rest) := by
  have hblank := hsp.lineBreak level
  rcases hbreak : sp.lineBreak level with _ | ⟨b, bs⟩
  · exact delimited_cons hc rest
  · have hb := hblank b (hbreak ▸ List.mem_cons_self ..)
    simp only [Json.isSpace, Bool.or_eq_true, beq_iff_eq] at hb
    rcases hb with ((rfl | rfl) | rfl) | rfl <;> exact delimited_cons (by decide) _

private theorem delimited_writeItems (vs : List Value) (level : Nat) {rest : List Char} (hrest : Delimited rest) :
    Delimited (writeItems sp level vs rest) := by
  cases vs with
  | nil => rwa [writeItems]
  | cons v vs =>
    rw [writeItems]
    exact delimited_cons (by decide) _

private theorem delimited_writeMembers {used : List String} (fs : Members used) (level : Nat) {rest : List Char}
    (hrest : Delimited rest) : Delimited (writeMembers sp level fs rest) := by
  cases fs with
  | nil => rwa [writeMembers]
  | cons k v new fs =>
    rw [writeMembers]
    exact delimited_cons (by decide) _

mutual

/-- The text of a value is cut into its tokens, before anything that cannot continue a number. -/
theorem scanAll?_write (hsp : sp.Blank) (level : Nat) :
    ∀ (v : Value) {rest : List Char} (done : List Token), Delimited rest →
      Token.scanAll? (v.write sp level rest) done = Token.scanAll? rest (v.tokens.reverse ++ done)
  | .null, rest, done, _ => by
    rw [write, Token.scanAll?_token rfl rfl]
    rfl
  | .bool true, rest, done, _ => by
    rw [write, Token.scanAll?_token rfl rfl]
    rfl
  | .bool false, rest, done, _ => by
    rw [write, Token.scanAll?_token rfl rfl]
    rfl
  | .number n, rest, done, hrest => by
    obtain ⟨c, cs, htext, hspace, hscan⟩ := Numeral.scan?_text n.regular_numeral hrest
    rw [write, ← n.text_numeral, htext, Token.scanAll?_token hspace hscan]
    rfl
  | .string s, rest, done, _ => by
    rw [write, Json.scanAll?_writeString]
    rfl
  | .array [], rest, done, _ => by
    rw [write, Token.scanAll?_token rfl rfl, Token.scanAll?_token rfl rfl]
    rfl
  | .array (v :: vs), rest, done, hrest => by
    have hclose : Delimited (sp.lineBreak level ++ ']' :: rest) := delimited_lineBreak hsp level (by decide) rest
    rw [write, Token.scanAll?_token rfl rfl, Token.scanAll?_blanks (hsp.lineBreak _),
      scanAll?_write hsp (level + 1) v _ (delimited_writeItems vs _ hclose),
      scanAll?_writeItems hsp (level + 1) vs _ hclose, Token.scanAll?_blanks (hsp.lineBreak _),
      Token.scanAll?_token rfl rfl]
    simp only [tokens, List.reverse_cons, List.reverse_append, List.reverse_nil, List.nil_append, List.append_assoc,
      List.cons_append]
  | .object .nil, rest, done, _ => by
    rw [write, Token.scanAll?_token rfl rfl, Token.scanAll?_token rfl rfl]
    rfl
  | .object (.cons k v _ fs), rest, done, hrest => by
    have hclose : Delimited (sp.lineBreak level ++ '\x7d' :: rest) := delimited_lineBreak hsp level (by decide) rest
    rw [write, Token.scanAll?_token rfl rfl, Token.scanAll?_blanks (hsp.lineBreak _), Json.scanAll?_writeString,
      Token.scanAll?_token rfl rfl, Token.scanAll?_blanks hsp.afterColon,
      scanAll?_write hsp (level + 1) v _ (delimited_writeMembers fs _ hclose),
      scanAll?_writeMembers hsp (level + 1) fs _ hclose, Token.scanAll?_blanks (hsp.lineBreak _),
      Token.scanAll?_token rfl rfl]
    simp only [tokens, List.reverse_cons, List.reverse_append, List.reverse_nil, List.nil_append, List.append_assoc,
      List.cons_append]

theorem scanAll?_writeItems (hsp : sp.Blank) (level : Nat) :
    ∀ (vs : List Value) {rest : List Char} (done : List Token), Delimited rest →
      Token.scanAll? (writeItems sp level vs rest) done = Token.scanAll? rest ((itemTokens vs).reverse ++ done)
  | [], rest, done, _ => by
    rw [writeItems]
    rfl
  | v :: vs, rest, done, hrest => by
    rw [writeItems, Token.scanAll?_token rfl rfl, Token.scanAll?_blanks (hsp.lineBreak _),
      scanAll?_write hsp level v _ (delimited_writeItems vs _ hrest), scanAll?_writeItems hsp level vs _ hrest]
    simp only [itemTokens, List.reverse_cons, List.reverse_append, List.append_assoc, List.cons_append, List.nil_append]

theorem scanAll?_writeMembers (hsp : sp.Blank) (level : Nat) :
    ∀ {used : List String} (fs : Members used) {rest : List Char} (done : List Token), Delimited rest →
      Token.scanAll? (writeMembers sp level fs rest) done = Token.scanAll? rest ((memberTokens fs).reverse ++ done)
  | _, .nil, rest, done, _ => by
    rw [writeMembers]
    rfl
  | _, .cons k v _ fs, rest, done, hrest => by
    rw [writeMembers, Token.scanAll?_token rfl rfl, Token.scanAll?_blanks (hsp.lineBreak _), Json.scanAll?_writeString,
      Token.scanAll?_token rfl rfl, Token.scanAll?_blanks hsp.afterColon,
      scanAll?_write hsp level v _ (delimited_writeMembers fs _ hrest), scanAll?_writeMembers hsp level fs _ hrest]
    simp only [memberTokens, List.reverse_cons, List.reverse_append, List.append_assoc, List.cons_append,
      List.nil_append]

end

/-- The tokens of a whole text. -/
theorem ofChars?_write (hsp : sp.Blank) (v : Value) : Token.ofChars? (v.write sp 0 []) = some v.tokens := by
  rw [Token.ofChars?, scanAll?_write hsp 0 v [] Json.delimited_nil, List.append_nil, Token.scanAll?,
    List.reverse_reverse]

end Value

end CellGraph
