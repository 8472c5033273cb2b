import Mathlib.Data.List.Basic
import Flatword.Asm.Instr

/-!
# Assembly is read back

The text of code names every instruction: it can be read back, line by line. So different code has
different text.
-/

namespace Flatword

/-- Letters, digits and underscores; of the characters beyond ASCII all may be letters. -/
def isWordChar (c : Char) : Bool :=
  c.isAlphanum || c = '_' || 128 ≤ c.toNat

/-- A text that can stand for a variable, a label or a word in hexadecimal. -/
def IsWord (text : String) : Prop :=
  ∀ c ∈ text.toList, isWordChar c = true

def Dest.WellNamed : Dest → Prop
  | var name => IsWord name
  | indirect base index => IsWord base ∧ ∀ name ∈ index, IsWord name

def Src.WellNamed : Src → Prop
  | var name | immediate name => IsWord name
  | indirect base index => IsWord base ∧ ∀ name ∈ index, IsWord name

/-- All names in an instruction are words, and a comment is one line. -/
def Instr.WellNamed : Instr → Prop
  | declare name | label name | clear name | inc name | dec name | not name | push name | pop name
  | call name | jump name => IsWord name
  | const instr => instr.WellNamed
  | comment text => '\n' ∉ text.toList
  | set dest src => dest.WellNamed ∧ src.WellNamed
  | arith _ dest src => IsWord dest ∧ IsWord src
  | ifZero name target | ifNonzero name target => IsWord name ∧ IsWord target
  | ifCompare _ left right target => IsWord left ∧ IsWord right ∧ IsWord target
  | ret | finish | stop => True

/-! ## Reading -/

namespace Reading

/-- The word that a text starts with, and what follows. -/
def word (text : List Char) : String × List Char :=
  (String.ofList (text.takeWhile isWordChar), text.dropWhile isWordChar)

/-- The word behind a sign, and what follows the space behind it. -/
def operand (text : List Char) : String × List Char :=
  ((word text.tail).1, (word text.tail).2.tail)

/-- The words of an indirection, and what follows the space behind it. -/
def indirect (text : List Char) : (String × Option String) × List Char :=
  match word text with
  | (base, ' ' :: '+' :: ' ' :: index) =>
    ((base, some (word index.tail).1), (word index.tail).2.drop 2)
  | (base, rest) => ((base, none), rest.drop 2)

def dest : List Char → Dest × List Char
  | '@' :: '(' :: '$' :: rest => (.indirect (indirect rest).1.1 (indirect rest).1.2, (indirect rest).2)
  | text => (.var (operand text).1, (operand text).2)

def src : List Char → Src
  | '#' :: hex => .immediate (String.ofList hex)
  | '$' :: '(' :: '$' :: rest => .indirect (indirect rest).1.1 (indirect rest).1.2
  | text => .var (operand text).1

def operation (mnemonic : String) (text : List Char) : Instr :=
  match mnemonic with
  | "SET" => .set (dest text).1 (src (dest text).2)
  | "CLR" => .clear (operand text).1
  | "INC" => .inc (operand text).1
  | "DEC" => .dec (operand text).1
  | "NOT" => .not (operand text).1
  | "PSH" => .push (operand text).1
  | "POP" => .pop (operand text).1
  | "JSR" => .call (operand text).1
  | "JMP" => .jump (operand text).1
  | "BZR" => .ifZero (operand text).1 (operand (operand text).2).1
  | "BNZ" => .ifNonzero (operand text).1 (operand (operand text).2).1
  | "RET" => .ret
  | "FIN" => .finish
  | "STP" => .stop
  | _ =>
    match BinaryOp.all.find? (·.mnemonic = mnemonic), Comparison.all.find? (·.mnemonic = mnemonic) with
    | some op, _ => .arith op (operand text).1 (operand (operand text).2).1
    | none, op => .ifCompare (op.getD .eq) (operand text).1 (operand (operand text).2).1
        (operand (operand (operand text).2).2).1

def instr : List Char → Instr
  | '^' :: 'c' :: 'o' :: 'n' :: 's' :: 't' :: ' ' :: rest => .const (instr rest)
  | '^' :: 'd' :: rest => .declare (String.ofList (rest.drop 7))
  | '^' :: rest => .comment (String.ofList (rest.drop 8))
  | text =>
    if (word text).2 = [':'] then .label (word text).1
    else operation (word text).1 (word text).2.tail

variable {name : String} {rest : List Char}

theorem word_append (hname : IsWord name) (hrest : ∀ c ∈ rest.head?, isWordChar c = false) :
    word (name.toList ++ rest) = (name, rest) := by
  have htake : rest.takeWhile isWordChar = [] ∧ rest.dropWhile isWordChar = rest := by
    cases rest with
    | nil => exact ⟨rfl, rfl⟩
    | cons c rest =>
      have hc := hrest c rfl
      simp [hc]
  rw [word, List.takeWhile_append_of_pos hname, List.dropWhile_append_of_pos hname, htake.1, htake.2,
    List.append_nil, String.ofList_toList]

theorem operand_next {sign : Char} (hname : IsWord name) :
    operand (sign :: (name.toList ++ ' ' :: rest)) = (name, rest) := by
  rw [operand, List.tail_cons, word_append hname (by simp [isWordChar]), List.tail_cons]

theorem operand_end {sign : Char} (hname : IsWord name) : operand (sign :: name.toList) = (name, []) := by
  have hword : word (name.toList ++ []) = (name, []) := word_append hname (by simp)
  rw [List.append_nil] at hword
  rw [operand, List.tail_cons, hword, List.tail_nil]

theorem head_ne {c : Char} (hname : IsWord name) (hc : isWordChar c = false) (rest : List Char)
    (hrest : rest.head? ≠ some c) (rest' : List Char) : name.toList ++ rest ≠ c :: rest' := by
  intro heq
  rcases List.append_eq_cons_iff.mp heq with ⟨-, heq⟩ | ⟨chars, hchars, -⟩
  · simp [heq] at hrest
  · exact absurd (hname c (by simp [hchars])) (by simp [hc])

theorem indirect_plain (hname : IsWord name) : indirect (name.toList ++ ')' :: rest) = ((name, none), rest.tail) := by
  rw [indirect, word_append hname (by simp [isWordChar])]
  simp

theorem indirect_indexed {index : String} (hname : IsWord name) (hindex : IsWord index) :
    indirect (name.toList ++ ' ' :: '+' :: ' ' :: '$' :: (index.toList ++ ')' :: rest)) =
      ((name, some index), rest.tail) := by
  rw [indirect, word_append hname (by simp [isWordChar])]
  simp only [List.tail_cons]
  rw [word_append hindex (by simp [isWordChar])]
  simp

theorem dest_text {d : Dest} (h : d.WellNamed) : dest (d.text.toList ++ ' ' :: rest) = (d, rest) := by
  obtain name | ⟨base, _ | index⟩ := d
  · rw [Dest.text, String.toList_append, dest]
    · simp [operand_next h]
    · intro rest' heq
      exact head_ne (c := '(') h (by decide) (' ' :: rest) (by simp) _ (by simpa using heq)
  · simp [Dest.text, indirectText, dest, indirect_plain h.1]
  · simp [Dest.text, indirectText, dest, indirect_indexed h.1 (h.2 index rfl)]

theorem src_text {s : Src} (h : s.WellNamed) : src s.text.toList = s := by
  obtain name | hex | ⟨base, _ | index⟩ := s
  · rw [Src.text, String.toList_append, src]
    · simp [operand_end h]
    · simp
    · intro rest' heq
      exact head_ne (c := '(') h (by decide) [] (by simp) _ (by simpa using heq)
  · simp [Src.text, src]
  · simp [Src.text, indirectText, src, indirect_plain h.1]
  · simp [Src.text, indirectText, src, indirect_indexed h.1 (h.2 index rfl)]

theorem instr_text {i : Instr} (h : i.WellNamed) : instr i.text.toList = i := by
  induction i with
  | declare name => simp [Instr.text, instr]
  | const i ih => simp [Instr.text, instr, ih h]
  | comment text => simp [Instr.text, instr]
  | label name =>
    have hword : word (name.toList ++ [':']) = (name, [':']) := word_append h (by simp [isWordChar])
    have hsign := head_ne (c := '^') h (by decide) [':'] (by simp)
    rw [Instr.text, String.toList_append, show ":".toList = [':'] by simp, instr]
    · simp [hword]
    · exact fun _ => hsign _
    · exact fun _ => hsign _
    · exact fun _ => hsign _
  | set d s => simp [Instr.text, instr, word, isWordChar, operation, dest_text h.1, src_text h.2]
  | clear | inc | dec | not | push | pop | call | jump =>
    simp [Instr.text, instr, word, isWordChar, operation, operand_end h]
  | ifZero | ifNonzero =>
    simp [Instr.text, instr, word, isWordChar, operation, operand_next h.1, operand_end h.2]
  | arith op =>
    cases op <;>
      simp [Instr.text, instr, word, isWordChar, operation, operand_next h.1, operand_end h.2,
        BinaryOp.mnemonic, BinaryOp.all]
  | ifCompare op =>
    cases op <;>
      simp [Instr.text, instr, word, isWordChar, operation, operand_next h.1, operand_next h.2.1,
        operand_end h.2.2, BinaryOp.mnemonic, BinaryOp.all, Comparison.mnemonic, Comparison.all]
  | ret | finish | stop => simp [Instr.text, instr, word, isWordChar, operation]

end Reading

/-! ## Lines -/

theorem IsWord.not_mem {name : String} {c : Char} (h : IsWord name) (hc : isWordChar c = false) :
    c ∉ name.toList :=
  fun hmem => absurd (h c hmem) (by simp [hc])

theorem Instr.WellNamed.one_line {i : Instr} (h : i.WellNamed) : '\n' ∉ i.text.toList := by
  have hword {name : String} (h : IsWord name) : '\n' ∉ name.toList := h.not_mem (by decide)
  have hindirect {base : String} {index : Option String} (h : IsWord base ∧ ∀ name ∈ index, IsWord name) :
      '\n' ∉ (indirectText base index).toList := by
    cases index with
    | none => simp [indirectText, hword h.1]
    | some index => simp [indirectText, hword h.1, hword (h.2 index rfl)]
  induction i with
  | const i ih => simp [Instr.text, ih h]
  | comment text => simpa [Instr.text] using show '\n' ∉ text.toList from h
  | declare | label | clear | inc | dec | not | push | pop | call | jump => simp [Instr.text, hword h]
  | set d s =>
    have hd : '\n' ∉ d.text.toList := by
      cases d with
      | var => simp [Dest.text, hword h.1]
      | indirect => simp [Dest.text, hindirect h.1]
    have hs : '\n' ∉ s.text.toList := by
      cases s with
      | var | immediate => simp [Src.text, hword h.2]
      | indirect => simp [Src.text, hindirect h.2]
    simp [Instr.text, hd, hs]
  | arith op => cases op <;> simp [Instr.text, BinaryOp.mnemonic, hword h.1, hword h.2]
  | ifZero | ifNonzero => simp [Instr.text, hword h.1, hword h.2]
  | ifCompare op =>
    cases op <;> simp [Instr.text, Comparison.mnemonic, hword h.1, hword h.2.1, hword h.2.2]
  | ret | finish | stop => simp [Instr.text]

theorem Code.text_cons (i : Instr) (code : Code) :
    Code.text (i :: code) = i.text ++ "\n" ++ Code.text code := by
  simp [Code.text, String.join_cons]

theorem append_newline_inj {line line' rest rest' : List Char} (h : '\n' ∉ line) (h' : '\n' ∉ line')
    (heq : line ++ '\n' :: rest = line' ++ '\n' :: rest') : line = line' ∧ rest = rest' := by
  rcases List.append_eq_append_iff.mp heq with ⟨more, rfl, hmore⟩ | ⟨more, rfl, hmore⟩
  · cases more <;> simp_all
  · cases more <;> simp_all

/-- Code is known from its text, if variables, labels and immediate words are named by words and every
comment is one line. -/
theorem Code.text_eq_iff {code code' : Code} (h : ∀ i ∈ code, i.WellNamed) (h' : ∀ i ∈ code', i.WellNamed) :
    code.text = code'.text ↔ code = code' := by
  refine ⟨fun htext => ?_, congrArg Code.text⟩
  induction code generalizing code' with
  | nil =>
    cases code' with
    | nil => rfl
    | cons => simpa [Code.text] using congrArg String.toList htext
  | cons i code ih =>
    cases code' with
    | nil => simpa [Code.text] using congrArg String.toList htext
    | cons i' code' =>
      rw [List.forall_mem_cons] at h h'
      obtain ⟨hline, hrest⟩ := append_newline_inj h.1.one_line h'.1.one_line
        (by simpa [Code.text_cons] using congrArg String.toList htext)
      have hi : i = i' := by rw [← Reading.instr_text h.1, hline, Reading.instr_text h'.1]
      rw [hi, ih h.2 h'.2 (String.toList_inj.mp hrest)]

/-- A store behind an index, wrapped once and twice. -/
theorem nestedConst_text_ne :
    Code.text [.const (.const (.set (.indirect "p" (some "i")) (.immediate "0f"))), .comment "a: b"] ≠
      Code.text [.const (.set (.indirect "p" (some "i")) (.immediate "0f")), .comment "a: b"] :=
  fun h => absurd ((Code.text_eq_iff (by simp [Instr.WellNamed, Dest.WellNamed, Src.WellNamed, IsWord, isWordChar])
    (by simp [Instr.WellNamed, Dest.WellNamed, Src.WellNamed, IsWord, isWordChar])).mp h) (by decide)

end Flatword
