import DocSchema.Json.Text
import DocSchema.Proofs.Json.NumberText
import DocSchema.Proofs.Json.StringText
import Mathlib.Data.List.Forall2

/-!
# Tokens of written texts

The text of a value is split into the tokens of the value, in every layout that puts nothing but blanks between them.
A word ends only where another character follows, so what a text is read as is told together with what stands behind
it.
-/

namespace DocSchema

/-! ## Values whose numbers fit -/

/-- An integer fits a signed or an unsigned word. -/
def Number.Fits : Number → Prop
  | .int i => -(Word.signedBound : Int) ≤ i ∧ i < Word.unsignedBound
  | .float _ => True

namespace Json

/-- All numbers in the value fit. -/
inductive Fits : Json → Prop
  | null : Fits .null
  | bool (b : Bool) : Fits (.bool b)
  | num {n : Number} (here : n.Fits) : Fits (.num n)
  | str (s : String) : Fits (.str s)
  | arr {items : List Json} (inside : ∀ v ∈ items, Fits v) : Fits (.arr items)
  | obj {members : List (String × Json)} (inside : ∀ name v, (name, v) ∈ members → Fits v) : Fits (.obj members)

theorem Fits.of_members {members : Members} (inside : ∀ m ∈ members, m.2.Fits) : (Json.obj members).Fits :=
  .obj fun name v member => inside (name, v) member

/-! ## Tokens of values -/

mutual

def tokens : Json → List Token
  | .null => [.null]
  | .bool b => [.bool b]
  | .num n => [.number (some n)]
  | .str s => [.string (some s)]
  | .arr items => .beginArray :: (List.intercalate [.comma] (itemTokens items) ++ [.endArray])
  | .obj members => .beginObject :: (List.intercalate [.comma] (memberTokens members) ++ [.endObject])

def itemTokens : List Json → List (List Token)
  | [] => []
  | v :: rest => tokens v :: itemTokens rest

def memberTokens : List (String × Json) → List (List Token)
  | [] => []
  | (name, v) :: rest => (.string (some name) :: .colon :: tokens v) :: memberTokens rest

end

theorem itemTokens_eq (items : List Json) : itemTokens items = items.map tokens := by
  induction items with
  | nil => rfl
  | cons v rest ih => rw [itemTokens, ih, List.map_cons]

theorem memberTokens_eq (members : Members) :
    memberTokens members = members.map fun m => .string (some m.1) :: .colon :: tokens m.2 := by
  induction members with
  | nil => rfl
  | cons m rest ih => rw [memberTokens, ih, List.map_cons]

theorem writeItems_eq (layout : Layout) (depth : Nat) (items : List Json) :
    writeItems layout depth items = items.map (write layout depth) := by
  induction items with
  | nil => rfl
  | cons v rest ih => rw [writeItems, ih, List.map_cons]

theorem writeMembers_eq (layout : Layout) (depth : Nat) (members : Members) :
    writeMembers layout depth members =
      members.map fun m => quoted m.1 ++ ':' :: (layout.gap ++ write layout depth m.2) := by
  induction members with
  | nil => rfl
  | cons m rest ih => rw [writeMembers, ih, List.map_cons]

/-! ## Texts and what they are read as -/

namespace Scan

/-- The tokens that the rest of a text ends with. -/
def remaining (s : Scan) (text : List Char) : Option (List Token) :=
  (text.foldlM step s).bind finish

theorem remaining_append {s s' : Scan} {text : List Char} (read : text.foldlM step s = some s') (rest : List Char) :
    s.remaining (text ++ rest) = s'.remaining rest := by
  rw [remaining, List.foldlM_append, read]
  rfl

/-- No word goes on at the start of the text. -/
def Apart (text : List Char) : Prop :=
  ∀ c ∈ text.head?, isWordChar c = false

/-- The text is read as these tokens, if no word goes on behind it. -/
def Reads (text : List Char) (found : List Token) : Prop :=
  ∀ tokens rest, Apart rest →
    (Scan.mk .between tokens).remaining (text ++ rest) = (Scan.mk .between (found.reverse ++ tokens)).remaining rest

/-- The text is read as these tokens, whatever stands behind it. -/
def Settles (text : List Char) (found : List Token) : Prop :=
  ∀ tokens, text.foldlM step ⟨.between, tokens⟩ = some ⟨.between, found.reverse ++ tokens⟩

variable {text more : List Char} {found others : List Token}

theorem Settles.reads (settles : Settles text found) : Reads text found :=
  fun tokens rest _ => remaining_append (settles tokens) rest

theorem Settles.append (first : Settles text found) (second : Settles more others) :
    Settles (text ++ more) (found ++ others) := by
  intro tokens
  rw [List.foldlM_append, first tokens, List.reverse_append, List.append_assoc]
  exact second _

theorem Settles.append_reads (first : Settles text found) (second : Reads more others) :
    Reads (text ++ more) (found ++ others) := by
  intro tokens rest apart
  rw [List.append_assoc, remaining_append (first tokens), second _ rest apart, List.reverse_append,
    List.append_assoc]

/-- A text that begins with no word may follow any text. -/
theorem Reads.append (first : Reads text found) (second : Reads more others) (apart : Apart more) :
    Reads (text ++ more) (found ++ others) := by
  intro tokens rest behind
  have apart : Apart (more ++ rest) := by
    cases more with
    | nil => exact behind
    | cons c later => exact apart
  rw [List.append_assoc, first _ _ apart, second _ _ behind, List.reverse_append, List.append_assoc]

theorem settles_nil : Settles [] [] :=
  fun _ => rfl

theorem settles_blanks (blank : ∀ c ∈ text, isBlank c = true) : Settles text [] := by
  induction text with
  | nil => exact settles_nil
  | cons c rest ih =>
    obtain ⟨here, blank⟩ := List.forall_mem_cons.1 blank
    intro tokens
    rw [List.foldlM_cons, step, fresh, if_pos here]
    exact ih blank tokens

theorem settles_quoted (s : String) : Settles (quoted s) [.string (some s)] :=
  foldlM_quoted s

theorem not_isWordChar_of_isBlank {c : Char} (blank : isBlank c = true) : isWordChar c = false := by
  simp only [isBlank, Bool.or_eq_true, decide_eq_true_eq] at blank
  rcases blank with ((rfl | rfl) | rfl) | rfl <;> rfl

theorem apart_append (first : ∀ c ∈ text, isBlank c = true) (second : Apart more) : Apart (text ++ more) := by
  cases text with
  | nil => exact second
  | cons c rest =>
    rintro _ ⟨⟩
    exact not_isWordChar_of_isBlank (first c List.mem_cons_self)

/-! ### Words -/

theorem step_word {c : Char} (word : isWordChar c = true) (read : List Char) (tokens : List Token) :
    step ⟨.word read, tokens⟩ c = some ⟨.word (c :: read), tokens⟩ :=
  if_pos word

/-- A word ends where another character or the end of the text follows. -/
theorem remaining_word {read : List Char} {t : Token} (token : wordToken? read.reverse = some t)
    (tokens : List Token) {rest : List Char} (apart : Apart rest) :
    (Scan.mk (.word read) tokens).remaining rest = (Scan.mk .between (t :: tokens)).remaining rest := by
  cases rest with
  | nil =>
    change (wordToken? read.reverse).map _ = _
    rw [token]
    rfl
  | cons c rest =>
    have ends : step ⟨.word read, tokens⟩ c = step ⟨.between, t :: tokens⟩ c := by
      change (if isWordChar c then _ else (wordToken? read.reverse).bind fun t => fresh (t :: tokens) c) = _
      rw [if_neg (ne_true_of_eq_false (apart c rfl)), token]
      rfl
    rw [remaining, List.foldlM_cons, ends]
    rfl

/-- A word is collected to its end. -/
theorem foldlM_word (word : ∀ c ∈ text, isWordChar c = true) (read : List Char) (tokens : List Token) :
    text.foldlM step ⟨.word read, tokens⟩ = some ⟨.word (text.reverse ++ read), tokens⟩ := by
  induction text generalizing read with
  | nil => rfl
  | cons c rest ih =>
    obtain ⟨here, word⟩ := List.forall_mem_cons.1 word
    rw [List.foldlM_cons, step_word here, List.reverse_cons, List.append_assoc]
    exact ih word (c :: read)

theorem step_between_word {c : Char} (word : isWordChar c = true) (tokens : List Token) :
    step ⟨.between, tokens⟩ c = some ⟨.word [c], tokens⟩ := by
  have blank : isBlank c = false := by
    cases blank : isBlank c with
    | false => rfl
    | true => exact absurd (word.symm.trans (not_isWordChar_of_isBlank blank)) nofun
  have quote : c ≠ '"' := by
    rintro rfl
    exact absurd word (by decide)
  change fresh tokens c = _
  rw [fresh, blank, if_neg Bool.false_ne_true, if_neg quote, if_pos word]

/-- A word is told by what ends it: another character or the end of the text. -/
theorem reads_word {t : Token} (filled : text ≠ []) (word : ∀ c ∈ text, isWordChar c = true)
    (token : wordToken? text = some t) : Reads text [t] := by
  intro tokens rest apart
  obtain ⟨c, later, rfl⟩ := List.exists_cons_of_ne_nil filled
  obtain ⟨here, word⟩ := List.forall_mem_cons.1 word
  have read : (c :: later).foldlM step ⟨.between, tokens⟩ = some ⟨.word (c :: later).reverse, tokens⟩ := by
    rw [List.foldlM_cons, step_between_word here, List.reverse_cons]
    exact foldlM_word word [c] tokens
  rw [remaining_append read]
  exact remaining_word (by rwa [List.reverse_reverse]) tokens apart

theorem reads_null : Reads ['n', 'u', 'l', 'l'] [.null] :=
  reads_word nofun (List.all_eq_true.1 rfl) rfl

theorem reads_boolText (b : Bool) : Reads (boolText b) [.bool b] := by
  cases b with
  | true => exact reads_word nofun (List.all_eq_true.1 rfl) rfl
  | false => exact reads_word nofun (List.all_eq_true.1 rfl) rfl

/-! ### Containers -/

/-- Parts with commas between them are read part by part. -/
theorem reads_intercalate {gap : List Char} (blank : ∀ c ∈ gap, isBlank c = true) {parts : List (List Char)}
    {tokens : List (List Token)} (each : List.Forall₂ Reads parts tokens) (filled : parts ≠ []) :
    Reads (List.intercalate (',' :: gap) parts) (List.intercalate [.comma] tokens) := by
  induction each with
  | nil => exact absurd rfl filled
  | @cons part ts parts tokens here each ih =>
    cases each with
    | nil =>
      rw [List.intercalate_singleton, List.intercalate_singleton]
      exact here
    | cons next each =>
      have comma : Settles [','] [.comma] := fun _ => rfl
      have later := (comma.append (settles_blanks blank)).append_reads (ih nofun)
      rw [List.intercalate_cons_cons, List.intercalate_cons_cons, List.append_assoc, List.append_assoc]
      exact here.append later (by rintro _ ⟨⟩; rfl)

/-- A layout puts nothing but blanks between tokens. -/
structure IsBlankLayout (layout : Layout) : Prop where
  lineBreak : ∀ depth, ∀ c ∈ layout.lineBreak depth, isBlank c = true
  gap : ∀ c ∈ layout.gap, isBlank c = true

theorem isBlankLayout_compact : IsBlankLayout .compact :=
  ⟨fun _ => by simp [Layout.compact], by simp [Layout.compact]⟩

theorem isBlankLayout_indented : IsBlankLayout .indented := by
  refine ⟨fun depth => List.forall_mem_cons.2 ⟨rfl, fun c member => ?_⟩, List.forall_mem_singleton.2 rfl⟩
  rw [List.eq_of_mem_replicate member]
  rfl

theorem reads_bracketed {layout : Layout} (blank : IsBlankLayout layout) (depth : Nat) {opening closing : Char}
    {first last : Token} (opens : Settles [opening] [first]) (closes : Settles [closing] [last])
    (apart : isWordChar closing = false) {parts : List (List Char)} {tokens : List (List Token)}
    (each : List.Forall₂ Reads parts tokens) :
    Reads (bracketed layout depth opening closing parts)
      (first :: (List.intercalate [.comma] tokens ++ [last])) := by
  cases parts with
  | nil =>
    cases each
    exact (opens.append closes).reads
  | cons part parts =>
    -- The last part may end with a word, which the line break or the closing bracket ends.
    have inside := reads_intercalate (blank.lineBreak (depth + 1)) each nofun
    have behind := (settles_blanks (blank.lineBreak depth)).append closes
    have ends : Apart (layout.lineBreak depth ++ [closing]) :=
      apart_append (blank.lineBreak depth) (by rintro _ ⟨⟩; exact apart)
    have whole := (opens.append (settles_blanks (blank.lineBreak (depth + 1)))).append_reads
      (inside.append behind.reads ends)
    simpa [bracketed] using whole

end Scan

/-! ## Numbers -/

namespace Numeral

theorem isWordChar_of_isDigit {c : Char} (digit : c.isDigit = true) : Scan.isWordChar c = true := by
  simp [Scan.isWordChar, Char.isAlphanum, digit]

/-- A numeral is spelled with word characters only. -/
theorem isWordChar_of_mem_spelled {whole : List Char} {fractional : Option (List Char)} (start : IsWhole whole)
    (run : ∀ digits, fractional = some digits → IsFractional digits) (exponent : Option Int) :
    ∀ c ∈ spelled whole fractional exponent, Scan.isWordChar c = true := by
  intro c member
  simp only [spelled, List.mem_append] at member
  rcases member with member | member | member
  · exact isWordChar_of_isDigit (start.2.1 c member)
  · cases fractional with
    | none => cases member
    | some digits =>
      rcases List.mem_cons.1 member with rfl | member
      · rfl
      · exact isWordChar_of_isDigit ((run digits rfl).2 c member)
  · cases exponent with
    | none => cases member
    | some e =>
      rcases List.mem_cons.1 member with rfl | member
      · rfl
      rcases List.mem_cons.1 member with rfl | member
      · split <;> rfl
      · exact isWordChar_of_isDigit (Digits.isDigit_of_mem_toDigits c member)

/-- An integer that fits is read as itself. -/
theorem number?_int {i : Int} (fits : Number.Fits (.int i)) :
    number? ⟨decide (i < 0), Nat.toDigits 10 i.natAbs, none, none⟩ = some (.int i) := by
  obtain ⟨above, below⟩ := fits
  have bounds : if decide (i < 0) = true then i.natAbs ≠ 0 ∧ i.natAbs ≤ Word.signedBound
      else i.natAbs < Word.unsignedBound := by
    split
    · next negative =>
      have negative := of_decide_eq_true negative
      omega
    · next positive =>
      have positive : ¬ i < 0 := fun negative => positive (decide_eq_true negative)
      omega
  simp only [number?, Digits.value_toDigits, Option.isNone_none, true_and, if_pos bounds, Option.some.injEq,
    Number.int.injEq]
  split
  · next negative =>
    have negative := of_decide_eq_true negative
    omega
  · next positive =>
    have positive : ¬ i < 0 := fun negative => positive (decide_eq_true negative)
    omega

/-- A numeral with a fraction or an exponent is read as a float. -/
theorem number?_float {n : Numeral} {x : Binary64} (pointed : n.fractional.isSome = true ∨ n.exponent.isSome = true)
    (value : Binary64.ofDecimal? n.negative n.decimal = some x) : n.number? = some (.float x) := by
  have whole : ¬ (n.fractional.isNone = true ∧ n.exponent.isNone = true) := by
    rintro ⟨whole, plain⟩
    rcases pointed with pointed | pointed
    · exact absurd pointed (Option.not_isSome_iff_eq_none.2 (Option.isNone_iff_eq_none.1 whole))
    · exact absurd pointed (Option.not_isSome_iff_eq_none.2 (Option.isNone_iff_eq_none.1 plain))
  unfold number?
  rw [if_neg (fun parts => whole ⟨parts.1, parts.2.1⟩), value]
  rfl

end Numeral

theorem Scan.wordToken?_of_ofText? {word : List Char} {n : Numeral} (read : Numeral.ofText? word = some n) :
    wordToken? word = some (.number n.number?) := by
  have apart : ∀ name, Numeral.ofText? name = none → word ≠ name := by
    rintro name other rfl
    exact absurd (read.symm.trans other) nofun
  rw [wordToken?, if_neg (apart _ rfl), if_neg (apart _ rfl), if_neg (apart _ rfl), read]
  rfl

theorem isWordChar_of_mem_signed {text : List Char} (word : ∀ c ∈ text, Scan.isWordChar c = true) (negative : Bool) :
    ∀ c ∈ if negative then '-' :: text else text, Scan.isWordChar c = true := by
  cases negative with
  | true => exact List.forall_mem_cons.2 ⟨rfl, word⟩
  | false => exact word

theorem isWordChar_of_mem_numberText (n : Number) : ∀ c ∈ numberText n, Scan.isWordChar c = true := by
  cases n with
  | int i =>
    have digits : ∀ n : Nat, ∀ c ∈ Nat.toDigits 10 n, Scan.isWordChar c = true :=
      fun n c member => Numeral.isWordChar_of_isDigit (Digits.isDigit_of_mem_toDigits c member)
    cases i with
    | ofNat n => exact digits n
    | negSucc n => exact isWordChar_of_mem_signed (digits (n + 1)) true
  | float x =>
    obtain ⟨whole, fractional, exponent, magnitude, start, run, -⟩ :=
      Binary64.isSpelled_magnitudeText (Binary64.isNormal_shortest x)
    have word := Numeral.isWordChar_of_mem_spelled start run exponent
    exact isWordChar_of_mem_signed (magnitude ▸ word) x.negative

theorem exists_numeral {n : Number} (fits : n.Fits) :
    ∃ numeral, Numeral.ofText? (numberText n) = some numeral ∧ numeral.number? = some n := by
  cases n with
  | int i => exact ⟨_, ofText?_intText i, Numeral.number?_int fits⟩
  | float x =>
    obtain ⟨numeral, read, pointed, value⟩ := Binary64.exists_ofText?_text x
    exact ⟨numeral, read, Numeral.number?_float pointed value⟩

theorem Scan.reads_numberText {n : Number} (fits : n.Fits) : Reads (numberText n) [.number (some n)] := by
  obtain ⟨numeral, read, value⟩ := exists_numeral fits
  have filled : numberText n ≠ [] := by
    intro empty
    rw [empty] at read
    cases read
  exact reads_word filled (isWordChar_of_mem_numberText n) (value ▸ wordToken?_of_ofText? read)

/-! ## Values -/

/-- The text of a value is read as the tokens of the value. -/
theorem reads_write {layout : Layout} (blank : Scan.IsBlankLayout layout) {v : Json} (fits : v.Fits) :
    ∀ depth, Scan.Reads (write layout depth v) v.tokens := by
  induction fits with
  | null => exact fun _ => Scan.reads_null
  | bool b => exact fun _ => Scan.reads_boolText b
  | num here => exact fun _ => Scan.reads_numberText here
  | str s => exact fun _ => (Scan.settles_quoted s).reads
  | @arr items _ ih =>
    intro depth
    rw [write, tokens, writeItems_eq, itemTokens_eq]
    refine Scan.reads_bracketed blank depth (fun _ => rfl) (fun _ => rfl) rfl ?_
    rw [List.forall₂_map_left_iff, List.forall₂_map_right_iff, List.forall₂_same]
    exact fun v member => ih v member (depth + 1)
  | @obj members _ ih =>
    intro depth
    rw [write, tokens, writeMembers_eq, memberTokens_eq]
    refine Scan.reads_bracketed blank depth (fun _ => rfl) (fun _ => rfl) rfl ?_
    rw [List.forall₂_map_left_iff, List.forall₂_map_right_iff, List.forall₂_same]
    rintro ⟨name, v⟩ member
    have colon : Scan.Settles [':'] [.colon] := fun _ => rfl
    have front := (Scan.settles_quoted name).append (colon.append (Scan.settles_blanks blank.gap))
    simpa using front.append_reads (ih name v member (depth + 1))

/-- The tokens of a text are the tokens of the value that was written, and nothing is lost but the layout. -/
theorem tokens?_write {layout : Layout} (blank : Scan.IsBlankLayout layout) {v : Json} (fits : v.Fits)
    (depth : Nat) : tokens? (write layout depth v) = some v.tokens := by
  have read := reads_write blank fits depth [] [] nofun
  rw [List.append_nil, List.append_nil] at read
  refine (show tokens? _ = Scan.remaining Scan.start _ from rfl).trans (read.trans ?_)
  exact congrArg some (List.reverse_reverse _)

end Json

end DocSchema
