import TreeLowering.Text.Quoted
import TreeLowering.Json.Token

namespace TreeLowering.Text

open Json.Mode (hexDigit?)

def meant : Char → Char
  | 'n' => '\n'
  | 'r' => '\r'
  | 't' => '\t'
  | c => c

-- The text up to the closing mark, and what follows the mark.
def unquote? (mark : Char) : List Char → Option (List Char × List Char)
  | [] => none
  | '\\' :: 'x' :: high :: low :: rest => do
    let code := 16 * (← hexDigit? high) + (← hexDigit? low)
    let (cs, behind) ← unquote? mark rest
    return (Char.ofNat code :: cs, behind)
  | '\\' :: c :: rest => do
    let (cs, behind) ← unquote? mark rest
    return (meant c :: cs, behind)
  | c :: rest =>
    if c = mark then some ([], rest)
    else do
      let (cs, behind) ← unquote? mark rest
      return (c :: cs, behind)

theorem hexDigit_digitChar {d : Nat} (digit : d < 16) : hexDigit? (Nat.digitChar d) = some d := by
  revert d
  decide

-- What may follow a backslash, beside the `x` of a character that is given by its number.
def shortEscapes : List Char := ['\\', '\'', '"', 'n', 'r', 't']

-- The text that a run of characters between two marks stands for, where `bare` holds of the characters that may
-- stand for themselves. An escape that is not known has no meaning.
inductive Spells (bare : Char → Bool) (mark : Char) : List Char → List Char → Prop where
  | nil : Spells bare mark [] []
  | bare {c : Char} {text cs : List Char} (inside : c ≠ mark) (unescaped : c ≠ '\\') (allowed : bare c = true)
      (rest : Spells bare mark text cs) : Spells bare mark (c :: text) (c :: cs)
  | short {c : Char} {text cs : List Char} (known : c ∈ shortEscapes) (rest : Spells bare mark text cs) :
      Spells bare mark ('\\' :: c :: text) (meant c :: cs)
  | hex {high low : Char} {h l : Nat} {text cs : List Char} (first : hexDigit? high = some h)
      (second : hexDigit? low = some l) (rest : Spells bare mark text cs) :
      Spells bare mark ('\\' :: 'x' :: high :: low :: text) (Char.ofNat (16 * h + l) :: cs)

variable {plain bare : Char → Bool} {quote c : Char} {cs behind rest text : List Char}

def isQuote (c : Char) : Bool := c == '\'' || c == '"'

theorem isQuote_cases (marks : isQuote quote = true) : quote = '\'' ∨ quote = '"' := by
  simpa [isQuote] using marks

theorem mark_isQuote (cs : List Char) : isQuote (mark cs) = true := by
  unfold mark
  split <;> rfl

theorem unquote_hex {high low : Char} {h l : Nat} (first : hexDigit? high = some h) (second : hexDigit? low = some l)
    (read : unquote? quote rest = some (cs, behind)) :
    unquote? quote ('\\' :: 'x' :: high :: low :: rest) = some (Char.ofNat (16 * h + l) :: cs, behind) := by
  simp [unquote?, first, second, read]

theorem unquote_short (known : c ∈ shortEscapes) (read : unquote? quote rest = some (cs, behind)) :
    unquote? quote ('\\' :: c :: rest) = some (meant c :: cs, behind) := by
  have other : c ≠ 'x' := by
    rintro rfl
    revert known
    decide
  rw [unquote?]
  · simp [read]
  · simp [other]

theorem unquote_bare (inside : c ≠ quote) (unescaped : c ≠ '\\') (read : unquote? quote rest = some (cs, behind)) :
    unquote? quote (c :: rest) = some (c :: cs, behind) := by
  rw [unquote?]
  · simp [read, inside]
  · simp [unescaped]
  · simp [unescaped]

theorem unquote_end (marks : isQuote quote = true) (rest : List Char) :
    unquote? quote (quote :: rest) = some ([], rest) := by
  rcases isQuote_cases marks with rfl | rfl <;> rfl

theorem Spells.read (marks : isQuote quote = true) (spells : Spells bare quote text cs) (rest : List Char) :
    unquote? quote (text ++ quote :: rest) = some (cs, rest) := by
  induction spells with
  | nil => exact unquote_end marks rest
  | bare inside unescaped _ _ ih => exact unquote_bare inside unescaped ih
  | short known _ ih => exact unquote_short known ih
  | hex first second _ ih => exact unquote_hex first second ih

theorem escape_cases (plain : Char → Bool) (marks : isQuote quote = true) (c : Char) :
    (∃ x ∈ shortEscapes, meant x = c ∧ escape plain quote c = ['\\', x]) ∨
    (c ≠ quote ∧ c ≠ '\\' ∧ plain c = true ∧ escape plain quote c = [c]) ∨
    (plain c = false ∧ escape plain quote c = '\\' :: 'x' :: hexPair c.toNat) := by
  by_cases backslash : c = '\\'
  · exact .inl ⟨'\\', by decide, backslash.symm, by simp [escape, backslash]⟩
  by_cases newline : c = '\n'
  · exact .inl ⟨'n', by decide, newline.symm, by simp [escape, newline]⟩
  by_cases carriage : c = '\r'
  · exact .inl ⟨'r', by decide, carriage.symm, by simp [escape, carriage]⟩
  by_cases tabulator : c = '\t'
  · exact .inl ⟨'t', by decide, tabulator.symm, by simp [escape, tabulator]⟩
  by_cases same : c = quote
  · subst same
    rcases isQuote_cases marks with rfl | rfl <;> exact .inl ⟨_, by decide, rfl, rfl⟩
  rw [escape, if_neg backslash, if_neg newline, if_neg carriage, if_neg tabulator, if_neg same]
  cases allowed : plain c with
  | true => exact .inr (.inl ⟨same, backslash, rfl, rfl⟩)
  | false => exact .inr (.inr ⟨rfl, rfl⟩)

-- What is written spells its character. Those that are given by their number have to fit two digits.
theorem escape_spells (marks : isQuote quote = true) (small : plain c = false → c.toNat < 256)
    (spells : Spells plain quote text cs) : Spells plain quote (escape plain quote c ++ text) (c :: cs) := by
  rcases escape_cases plain marks c with ⟨x, known, rfl, written⟩ | ⟨inside, unescaped, allowed, written⟩ |
    ⟨numbered, written⟩
  · rw [written]
    exact .short known spells
  · rw [written]
    exact .bare inside unescaped allowed spells
  · have high : hexDigit? (Nat.digitChar (c.toNat / 16 % 16)) = some (c.toNat / 16 % 16) :=
      hexDigit_digitChar (Nat.mod_lt _ (by decide))
    have low : hexDigit? (Nat.digitChar (c.toNat % 16)) = some (c.toNat % 16) :=
      hexDigit_digitChar (Nat.mod_lt _ (by decide))
    have code : 16 * (c.toNat / 16 % 16) + c.toNat % 16 = c.toNat := by
      have bound := small numbered
      omega
    have hex := Spells.hex high low spells
    rw [code, Char.ofNat_toNat] at hex
    rw [written]
    exact hex

theorem escapes_spell (marks : isQuote quote = true) (small : ∀ c ∈ cs, plain c = false → c.toNat < 256) :
    Spells plain quote (cs.flatMap (escape plain quote)) cs := by
  induction cs with
  | nil => exact .nil
  | cons c cs ih =>
    rw [List.forall_mem_cons] at small
    exact escape_spells marks small.1 (ih small.2)

theorem quoted_read (small : ∀ c ∈ cs, plain c = false → c.toNat < 256) (rest : List Char) :
    ∃ body, quoted plain cs ++ rest = mark cs :: body ∧ unquote? (mark cs) body = some (cs, rest) :=
  ⟨cs.flatMap (escape plain (mark cs)) ++ mark cs :: rest, by simp [quoted],
    (escapes_spell (mark_isQuote cs) small).read (mark_isQuote cs) rest⟩

theorem plainText_small (control : plainText c = false) : c.toNat < 256 := by
  rw [plainText, Bool.and_eq_false_iff, decide_eq_false_iff_not, decide_eq_false_iff_not] at control
  omega

theorem literal_read (s : String) (rest : List Char) : ∃ quote body, isQuote quote = true ∧
    literal s ++ rest = quote :: body ∧ unquote? quote body = some (s.toList, rest) := by
  have small : ∀ c ∈ s.toList, plainText c = false → c.toNat < 256 := fun _ _ control => plainText_small control
  obtain ⟨body, split, read⟩ := quoted_read small rest
  exact ⟨_, body, mark_isQuote _, split, read⟩

def bytesOf (cs : List Char) : List UInt8 := cs.map fun c => UInt8.ofNat c.toNat

theorem byte_char (b : UInt8) : (Char.ofNat b.toNat).toNat = b.toNat := by
  have small := b.toNat_lt
  have valid : b.toNat.isValidChar := .inl (by omega)
  rw [Char.ofNat, dif_pos valid]
  rfl

theorem bytesOf_chars (bs : List UInt8) : bytesOf (bs.map fun b => Char.ofNat b.toNat) = bs := by
  rw [bytesOf, List.map_map]
  refine List.map_id'' (fun b => ?_) bs
  simp [byte_char]

theorem bytes_small (bs : List UInt8) :
    ∀ c ∈ bs.map fun b => Char.ofNat b.toNat, plainByte c = false → c.toNat < 256 := by
  intro c member _
  obtain ⟨b, -, rfl⟩ := List.mem_map.mp member
  rw [byte_char]
  exact b.toNat_lt

theorem bytesLiteral_read (bs : List UInt8) (rest : List Char) : ∃ quote body cs, isQuote quote = true ∧
    bytesLiteral bs ++ rest = 'b' :: quote :: body ∧ unquote? quote body = some (cs, rest) ∧ bytesOf cs = bs := by
  obtain ⟨body, split, read⟩ := quoted_read (bytes_small bs) rest
  exact ⟨_, body, _, mark_isQuote _, congrArg ('b' :: ·) split, read, bytesOf_chars bs⟩

end TreeLowering.Text
