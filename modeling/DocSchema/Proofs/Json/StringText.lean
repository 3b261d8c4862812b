import DocSchema.Json.Text
import DocSchema.Json.Token

/-!
# Texts of strings

Reading a quoted string from its opening quote ends at its closing quote, with the string as the one token that was
found. So different strings have different texts.
-/

namespace DocSchema.Json

/-- The characters with an escape of their own. -/
def namedEscapes : List Char :=
  ['"', '\\', '\x08', '\x0c', '\n', '\r', '\t']

theorem escape_of_not_named {c : Char} (plain : c ∉ namedEscapes) :
    escape c = if c.toNat < 0x20 then ['\\', 'u', '0', '0', hexDigit (c.toNat / 16), hexDigit (c.toNat % 16)]
      else [c] := by
  simp only [namedEscapes, List.mem_cons, List.not_mem_nil, or_false, not_or] at plain
  simp only [escape, plain, if_false]

namespace TextUnit

/-- What the text of a character is read as: the number of the character, if the text gives that. -/
def ofText (c : Char) : TextUnit :=
  if c ∉ namedEscapes ∧ c.toNat < 0x20 then .code c.toNat else .char c

/-- No character below the blank is half of a pair. -/
theorem chars?_ofText_cons (c : Char) (units : List TextUnit) :
    chars? (ofText c :: units) = (chars? units).map (c :: ·) := by
  unfold ofText
  split
  · next control =>
    have high : isHigh c.toNat = false := by
      simp only [isHigh, Bool.and_eq_false_iff, decide_eq_false_iff_not]
      omega
    have low : isLow c.toNat = false := by
      simp only [isLow, Bool.and_eq_false_iff, decide_eq_false_iff_not]
      omega
    rw [chars?.eq_def]
    simp only [high, low, Bool.false_eq_true, if_false, Char.ofNat_toNat]
  · rfl

theorem chars?_map_ofText (cs : List Char) : chars? (cs.map ofText) = some cs := by
  induction cs with
  | nil => rfl
  | cons c rest ih => rw [List.map_cons, chars?_ofText_cons, ih, Option.map_some]

end TextUnit

namespace Scan

variable {read : List TextUnit} {tokens : List Token}

/-- Both digits of a number below the blank are read. -/
theorem hexValue?_hexDigit :
    ∀ n < 0x20, hexValue? (hexDigit (n / 16)) = some (n / 16) ∧ hexValue? (hexDigit (n % 16)) = some (n % 16) := by
  decide

/-- The text of a character is read as the character. -/
theorem foldlM_escape (c : Char) :
    (escape c).foldlM step ⟨.string read, tokens⟩ = some ⟨.string (.ofText c :: read), tokens⟩ := by
  by_cases named : c ∈ namedEscapes
  · have table : ∀ c ∈ namedEscapes,
        (escape c).foldlM step ⟨.string read, tokens⟩ = some ⟨.string (.char c :: read), tokens⟩ := by
      simp only [namedEscapes, List.forall_mem_cons]
      exact ⟨rfl, rfl, rfl, rfl, rfl, rfl, rfl, nofun⟩
    rw [table c named, TextUnit.ofText, if_neg fun control => control.1 named]
  · rw [escape_of_not_named named]
    split
    · next control =>
      obtain ⟨first, second⟩ := hexValue?_hexDigit c.toNat control
      have whole : 16 * (c.toNat / 16) + c.toNat % 16 = c.toNat := Nat.div_add_mod ..
      rw [TextUnit.ofText, if_pos ⟨named, control⟩]
      simp [step, first, second, whole, show hexValue? '0' = some 0 from rfl]
    · next printed =>
      rw [TextUnit.ofText, if_neg fun control => printed control.2]
      simp only [namedEscapes, List.mem_cons, not_or] at named
      simp [step, named, printed]

theorem foldlM_flatMap_escape (cs : List Char) :
    (cs.flatMap escape).foldlM step ⟨.string read, tokens⟩ =
      some ⟨.string ((cs.map .ofText).reverse ++ read), tokens⟩ := by
  induction cs generalizing read with
  | nil => rfl
  | cons c rest ih =>
    rw [List.flatMap_cons, List.foldlM_append, foldlM_escape, Option.bind_eq_bind, Option.bind_some, ih,
      List.map_cons, List.reverse_cons, List.append_assoc]
    rfl

/-- A quoted string is one token. -/
theorem foldlM_quoted (s : String) (tokens : List Token) :
    (quoted s).foldlM step ⟨.between, tokens⟩ = some ⟨.between, .string (some s) :: tokens⟩ := by
  change (s.toList.flatMap escape ++ ['"']).foldlM step ⟨.string [], tokens⟩ = _
  rw [List.foldlM_append, foldlM_flatMap_escape, Option.bind_eq_bind, Option.bind_some, List.append_nil]
  change some (Scan.mk .between (stringToken _ :: tokens)) = _
  rw [stringToken, List.reverse_reverse, TextUnit.chars?_map_ofText, Option.map_some, String.ofList_toList]

end Scan

/-- Different strings have different texts. -/
theorem quoted_injective {a b : String} (same : quoted a = quoted b) : a = b := by
  have read := Scan.foldlM_quoted a []
  rw [same, Scan.foldlM_quoted] at read
  cases read
  rfl

end DocSchema.Json
