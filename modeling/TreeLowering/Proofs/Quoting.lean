import TreeLowering.Proofs.Literals
import TreeLowering.Tree.Render

namespace TreeLowering.Text

def Literal (bare : Char → Bool) (text cs : List Char) : Prop :=
  ∃ mark body, isQuote mark = true ∧ text = mark :: (body ++ [mark]) ∧ Spells bare mark body cs

-- The characters that may stand for themselves: no line ends inside a literal, and bytes are written in ASCII.
def bareText (c : Char) : Bool := c ≠ '\n' && c ≠ '\r'
def bareByte (c : Char) : Bool := bareText c && c.toNat < 128

def TextLiteral (text : List Char) (s : String) : Prop := Literal bareText text s.toList

def BytesLiteral (text : List Char) (bytes : List UInt8) : Prop :=
  ∃ literal, text = 'b' :: literal ∧ Literal bareByte literal (bytes.map fun b => Char.ofNat b.toNat)

variable {plain bare : Char → Bool} {quote c : Char} {cs other text more : List Char}

theorem Spells.weaken (allowed : ∀ c, plain c = true → bare c = true) (spells : Spells plain quote text cs) :
    Spells bare quote text cs := by
  induction spells with
  | nil => exact .nil
  | bare inside unescaped plain _ ih => exact .bare inside unescaped (allowed _ plain) ih
  | short known _ ih => exact .short known ih
  | hex first second _ ih => exact .hex first second ih

-- Two literals of which one begins with the other are the same and stand for the same: both are read by one reader,
-- which goes by the mark that they share.
theorem Literal.begins (whole : Literal bare (text ++ more) cs) (part : Literal bare text other) :
    more = [] ∧ other = cs := by
  obtain ⟨mark, body, marks, rfl, spells⟩ := part
  obtain ⟨quote, all, quotes, same, spellsAll⟩ := whole
  rw [List.cons_append] at same
  obtain ⟨rfl, same⟩ := List.cons.inj same
  have readPart := spells.read marks more
  have readWhole := spellsAll.read quotes []
  rw [← same, List.append_assoc, List.singleton_append, readPart] at readWhole
  cases readWhole
  exact ⟨rfl, rfl⟩

theorem quoted_literal (allowed : ∀ c, plain c = true → bare c = true)
    (small : ∀ c ∈ cs, plain c = false → c.toNat < 256) : Literal bare (quoted plain cs) cs :=
  ⟨mark cs, _, mark_isQuote cs, rfl, (escapes_spell (mark_isQuote cs) small).weaken allowed⟩

theorem quoted_only (allowed : ∀ c, plain c = true → bare c = true)
    (small : ∀ c ∈ cs, plain c = false → c.toNat < 256) (split : text ++ more = quoted plain cs) :
    Literal bare text other ↔ more = [] ∧ other = cs := by
  have whole := quoted_literal allowed small
  constructor
  · exact fun part => Literal.begins (split ▸ whole) part
  · rintro ⟨rfl, rfl⟩
    rw [List.append_nil] at split
    exact split ▸ whole

def Printable (c : Char) : Prop := 0x20 ≤ c.toNat ∧ c.toNat ≤ 0x7e

instance (c : Char) : Decidable (Printable c) := inferInstanceAs (Decidable (_ ∧ _))

theorem digitChar_printable {d : Nat} (digit : d < 16) : Printable (Nat.digitChar d) := by
  revert d
  decide

theorem short_printable (known : c ∈ shortEscapes) : Printable c := by
  have all : (shortEscapes.all fun x => decide (Printable x)) = true := rfl
  exact of_decide_eq_true (List.all_eq_true.mp all c known)

theorem escape_plain (printable : ∀ d, Printable d → plain d = true) (marks : isQuote quote = true) {d : Char}
    (member : d ∈ escape plain quote c) : plain d = true := by
  have opening : Printable '\\' := by decide
  rcases escape_cases plain marks c with ⟨x, known, -, written⟩ | ⟨-, -, allowed, written⟩ | ⟨-, written⟩ <;>
    rw [written] at member
  · simp only [List.mem_cons, List.not_mem_nil, or_false] at member
    rcases member with rfl | rfl
    · exact printable _ opening
    · exact printable _ (short_printable known)
  · exact List.mem_singleton.mp member ▸ allowed
  · have hex : Printable 'x' := by decide
    have high := digitChar_printable (Nat.mod_lt (c.toNat / 16) (by decide : 0 < 16))
    have low := digitChar_printable (Nat.mod_lt c.toNat (by decide : 0 < 16))
    simp only [hexPair, List.mem_cons, List.not_mem_nil, or_false] at member
    rcases member with rfl | rfl | rfl | rfl
    · exact printable _ opening
    · exact printable _ hex
    · exact printable _ high
    · exact printable _ low

theorem quoted_plain (printable : ∀ d, Printable d → plain d = true) (cs : List Char) :
    ∀ d ∈ quoted plain cs, plain d = true := by
  have marks : plain (mark cs) = true := by
    refine printable _ ?_
    rcases isQuote_cases (mark_isQuote cs) with same | same <;> rw [same] <;> decide
  intro d member
  rcases List.mem_cons.mp member with opening | inside
  · exact opening ▸ marks
  rcases List.mem_append.mp inside with body | closing
  · obtain ⟨c, -, written⟩ := List.mem_flatMap.mp body
    exact escape_plain printable (mark_isQuote cs) written
  · exact List.mem_singleton.mp closing ▸ marks

theorem plainText_exact : plainText c = true ↔ 0x20 ≤ c.toNat ∧ c.toNat ≠ 0x7f := by simp [plainText]

theorem plainByte_exact : plainByte c = true ↔ Printable c := by simp [plainByte, Printable]

theorem plainText_bare (c : Char) (plain : plainText c = true) : bareText c = true := by
  have bound := (plainText_exact.mp plain).1
  rw [bareText, Bool.and_eq_true, decide_eq_true_eq, decide_eq_true_eq]
  constructor
  · rintro rfl
    exact absurd bound (by decide)
  · rintro rfl
    exact absurd bound (by decide)

theorem plainByte_bare (c : Char) (plain : plainByte c = true) : bareByte c = true := by
  have printable := plainByte_exact.mp plain
  have text : plainText c = true := plainText_exact.mpr ⟨printable.1, fun same => by
    have bound := printable.2
    omega⟩
  rw [bareByte, plainText_bare c text, Bool.true_and, decide_eq_true_eq]
  exact Nat.lt_of_le_of_lt printable.2 (by decide)

theorem chars_injective {bs other : List UInt8}
    (same : (bs.map fun b => Char.ofNat b.toNat) = other.map fun b => Char.ofNat b.toNat) : bs = other := by
  rw [← bytesOf_chars bs, same, bytesOf_chars]

theorem str_render (s : String) : (Value.str s).render.toList = quoted plainText s.toList := String.toList_ofList ..

theorem bytes_render (bs : List UInt8) :
    (Value.bytes bs).render.toList = 'b' :: quoted plainByte (bs.map fun b => Char.ofNat b.toNat) :=
  String.toList_ofList ..

theorem bytes_only {bs other : List UInt8} (split : text ++ more = (Value.bytes bs).render.toList) :
    BytesLiteral text other ↔ more = [] ∧ other = bs := by
  rw [bytes_render] at split
  constructor
  · rintro ⟨literal, rfl, part⟩
    have rest := (List.cons.inj split).2
    obtain ⟨ends, same⟩ := (quoted_only plainByte_bare (bytes_small bs) rest).mp part
    exact ⟨ends, chars_injective same⟩
  · rintro ⟨rfl, rfl⟩
    rw [List.append_nil] at split
    exact ⟨_, split, quoted_literal plainByte_bare (bytes_small other)⟩

-- Of the printed form of a text or of bytes no part in front is a literal but the whole, which stands for just that
-- value; and no control character of ASCII is in it, nor in that of bytes any character beyond ASCII.
theorem printed_literal :
    (∀ (s other : String) (text more : List Char), text ++ more = (Value.str s).render.toList →
      (TextLiteral text other ↔ more = [] ∧ other = s)) ∧
    (∀ (bs other : List UInt8) (text more : List Char), text ++ more = (Value.bytes bs).render.toList →
      (BytesLiteral text other ↔ more = [] ∧ other = bs)) ∧
    (∀ (s : String), ∀ c ∈ (Value.str s).render.toList, 0x20 ≤ c.toNat ∧ c.toNat ≠ 0x7f) ∧
    ∀ (bs : List UInt8), ∀ c ∈ (Value.bytes bs).render.toList, 0x20 ≤ c.toNat ∧ c.toNat ≤ 0x7e := by
  refine ⟨fun s other text more split => ?_, fun bs other text more split => bytes_only split,
    fun s c member => ?_, fun bs c member => ?_⟩
  · rw [str_render] at split
    rw [TextLiteral, quoted_only plainText_bare (fun _ _ => plainText_small) split, String.toList_inj]
  · rw [str_render] at member
    refine plainText_exact.mp (quoted_plain (fun d printable => plainText_exact.mpr ⟨printable.1, ?_⟩) _ c member)
    have bound := printable.2
    omega
  · rw [bytes_render] at member
    rcases List.mem_cons.mp member with rfl | inside
    · decide
    · exact plainByte_exact.mp (quoted_plain (fun d => plainByte_exact.mpr) _ c inside)

def mixed : String := "it's \"\\\x7f\t\u00e9"
def mixedBytes : List UInt8 := [0x27, 0x5c, 0x80, 0x0a]

def mixedText : List Char := "'it\\'s \"\\\\\\x7f\\t\u00e9'".toList
def mixedBytesText : List Char := "b\"'\\\\\\x80\\n\"".toList

theorem mixed_literal : TextLiteral mixedText mixed ∧ BytesLiteral mixedBytesText mixedBytes ∧
    ('"' ∈ (Value.str mixed).render.toList ∧ 0x20 ≤ '"'.toNat ∧ '"'.toNat ≠ 0x7f) ∧
    '"' ∈ (Value.bytes mixedBytes).render.toList ∧ 0x20 ≤ '"'.toNat ∧ '"'.toNat ≤ 0x7e := by
  obtain ⟨ofText, ofBytes, text, bytes⟩ := printed_literal
  have printed : mixedText = (Value.str mixed).render.toList := by decide
  have printedBytes : mixedBytesText = (Value.bytes mixedBytes).render.toList := by decide
  refine ⟨(ofText mixed mixed mixedText [] ?_).mpr ⟨rfl, rfl⟩,
    (ofBytes mixedBytes mixedBytes mixedBytesText [] ?_).mpr ⟨rfl, rfl⟩, ?_, ?_⟩
  · rw [List.append_nil, printed]
  · rw [List.append_nil, printedBytes]
  · have inside : '"' ∈ (Value.str mixed).render.toList := by decide
    exact ⟨inside, text mixed '"' inside⟩
  · have inside : '"' ∈ (Value.bytes mixedBytes).render.toList := by decide
    exact ⟨inside, bytes mixedBytes '"' inside⟩

end TreeLowering.Text
