import Flatword.Proofs.Layout

/-!
# Phrases with several declarators

A phrase may declare several names after one keyword, with commas between them. It declares what the
phrases with one of these names each declare, one after the other.
-/

namespace Flatword

variable {brackets stars : List Token}

/-- The tokens of one declarator: stars, the name, and brackets. -/
structure Spelling where
  stars : List Token
  name : Token
  brackets : List Token
  star : ∀ t ∈ stars, t.value = "*" ∧ (t.kind = .unaryOperator ∨ t.kind = .operator)
  ident : name.kind = .ident
  bracket : ∀ t ∈ brackets, t.kind = .brackets

namespace Spelling

def tokens (d : Spelling) : List Token :=
  d.stars ++ d.name :: d.brackets

/-- Declarators with a comma before each but the first. Every comma has its line. -/
def joined (first : Spelling) (later : List (Line × Spelling)) : List Token :=
  first.tokens ++ later.flatMap fun d => Token.comma d.1 :: d.2.tokens

def declarator (d : Spelling) : Declarator where
  name := d.name.value
  line := d.name.line
  isPointer := !d.stars.isEmpty
  brackets := d.brackets

/-- What a declarator declares after the keyword that a mode stands for. -/
def lay (frame : PhraseFrame) (mode : PhraseMode) (d : Spelling) : Layout (List Slot) :=
  match mode with
  | .idle => return []
  | .base base _ => Declared.record (d.declarator.base frame false base)
  | .struct name line _ _ => do
    if frame.place.isArgument && d.stars.isEmpty then
      throw (.atLine d.name.line .structArgument)
    let shape? := Catalog.findStruct? (← get) name frame.place.stem
    Declared.record (d.declarator.struct frame name line shape?)

end Spelling

def PhraseMode.opened : PhraseMode → PhraseMode
  | .idle => .idle
  | .base b _ => .base b true
  | .struct name line _ _ => .struct name line false false

section Walk

variable {frame : PhraseFrame} {mode : PhraseMode} {first register : Bool} {previous : String}
  {rest : List Token}

theorem walkPhrase_comma (hmode : mode ≠ .idle) (line : Line) :
    walkPhrase frame mode false register previous (.comma line :: rest) =
      walkPhrase frame mode.opened false register "," rest := by
  conv_lhs => unfold walkPhrase
  cases mode with
  | idle => exact absurd rfl hmode
  | base b expecting => simp [Token.comma, PhraseMode.opened]
  | struct name keywordLine starred named => simp [Token.comma, PhraseMode.opened]

variable (frame register previous rest) in
theorem walkPhrase_brackets (h : ∀ t ∈ brackets, t.kind = .brackets)
    (hmode : (∃ b, mode = .base b false) ∨ ∃ name line starred, mode = .struct name line starred true) :
    ∃ last, walkPhrase frame mode false register previous (brackets ++ rest) =
      walkPhrase frame mode false register last rest := by
  induction brackets generalizing previous with
  | nil => exact ⟨previous, rfl⟩
  | cons t brackets ih =>
    obtain ⟨last, hlast⟩ := @ih t.value fun t ht => h t (List.mem_cons_of_mem _ ht)
    refine ⟨last, ?_⟩
    rw [← hlast, List.cons_append]
    conv_lhs => unfold walkPhrase
    rcases hmode with ⟨b, rfl⟩ | ⟨name, line, starred, rfl⟩
    · simp [h t (by simp)]
    · simp [h t (by simp)]

theorem walkPhrase_stars (mode : Bool → PhraseMode) (starred : Bool)
    (hmode : (∃ b, mode = fun _ => .base b true) ∨ ∃ name line, mode = (.struct name line · false))
    (h : ∀ t ∈ stars, t.value = "*" ∧ (t.kind = .unaryOperator ∨ t.kind = .operator)) :
    walkPhrase frame (mode starred) first register previous (stars ++ rest) =
      walkPhrase frame (mode (starred || !stars.isEmpty)) (first && stars.isEmpty) register
        (if stars.isEmpty then previous else "*") rest := by
  induction stars generalizing first previous starred with
  | nil => simp
  | cons t stars ih =>
    obtain ⟨hvalue, hkind⟩ := h t (by simp)
    have hskip := @ih false "*" true fun t ht => h t (List.mem_cons_of_mem _ ht)
    rw [List.cons_append]
    conv_lhs => unfold walkPhrase
    rcases hmode with ⟨b, rfl⟩ | ⟨name, line, rfl⟩ <;> rcases hkind with hkind | hkind <;>
      simp_all

theorem takeWhile_brackets (h : ∀ t ∈ brackets, t.kind = .brackets)
    (hrest : ∀ t ∈ rest.head?, t.kind ≠ .brackets) :
    (brackets ++ rest).takeWhile (·.kind = .brackets) = brackets := by
  rw [List.takeWhile_append_of_pos (by simpa using h)]
  cases rest with
  | nil => simp
  | cons t rest => simp [hrest t (by simp)]

variable (frame first rest) in
/-- A phrase that starts with a declarator. After it the walk is in a mode that the next comma takes back
to where it was. -/
theorem walkPhrase_spelling (d : Spelling) (hopened : mode.opened = mode) (hmode : mode ≠ .idle)
    (hprevious : previous ≠ "*") (hrest : ∀ t ∈ rest.head?, t.kind ≠ .brackets) :
    ∃ after last, after.opened = mode ∧ after ≠ .idle ∧
      walkPhrase frame mode first false previous (d.tokens ++ rest) = (do
        let slots ← d.lay frame mode
        return slots ++ (← walkPhrase frame after false false last rest)) := by
  have hstar : decide ((if d.stars.isEmpty then previous else "*") = "*") = !d.stars.isEmpty := by
    cases d.stars <;> simp [hprevious]
  have hbrackets := takeWhile_brackets d.bracket hrest
  cases mode with
  | idle => exact absurd rfl hmode
  | base b expecting =>
    obtain rfl : true = expecting := by simpa [PhraseMode.opened] using hopened
    obtain ⟨last, hlast⟩ :=
      walkPhrase_brackets frame false d.name.value rest d.bracket (.inl ⟨b, rfl⟩)
    refine ⟨.base b false, last, rfl, by simp, ?_⟩
    rw [Spelling.tokens, List.append_assoc, List.cons_append,
      walkPhrase_stars (fun _ => .base b true) false (.inl ⟨b, rfl⟩) d.star]
    conv_lhs => unfold walkPhrase
    simp only [d.ident, hstar, hbrackets, hlast, Spelling.lay, Spelling.declarator]
  | struct name line starred named =>
    obtain ⟨rfl, rfl⟩ : false = starred ∧ false = named := by simpa [PhraseMode.opened] using hopened
    obtain ⟨last, hlast⟩ := walkPhrase_brackets frame false d.name.value rest d.bracket
      (.inr ⟨name, line, !d.stars.isEmpty, rfl⟩)
    refine ⟨.struct name line (!d.stars.isEmpty) true, last, rfl, by simp, ?_⟩
    rw [Spelling.tokens, List.append_assoc, List.cons_append,
      walkPhrase_stars (.struct name line · false) false (.inr ⟨name, line, rfl⟩) d.star]
    conv_lhs => unfold walkPhrase
    simp only [d.ident, hstar, hbrackets, hlast, Spelling.lay, Spelling.declarator, Bool.false_or,
      Bool.not_not]
    by_cases hargument : (frame.place.isArgument && d.stars.isEmpty) = true
    · simp only [hargument, if_true]
      rfl
    · simp [hargument]

theorem walkPhrase_joined (d : Spelling) (later : List (Line × Spelling)) (hopened : mode.opened = mode)
    (hmode : mode ≠ .idle) (hprevious : previous ≠ "*") :
    walkPhrase frame mode first false previous (d.joined later) =
      List.flatten <$> (d :: later.map Prod.snd).mapM (Spelling.lay frame mode) := by
  induction later generalizing d first previous with
  | nil =>
    obtain ⟨after, last, -, -, hwalk⟩ := walkPhrase_spelling frame first [] d hopened hmode hprevious (by simp)
    rw [List.append_nil] at hwalk
    simp [Spelling.joined, hwalk, walkPhrase]
  | cons next later ih =>
    obtain ⟨after, last, hafter, hidle, hwalk⟩ := walkPhrase_spelling frame first
      (.comma next.1 :: next.2.joined later) d hopened hmode hprevious (by simp [Token.comma])
    have hjoined : d.joined (next :: later) = d.tokens ++ .comma next.1 :: next.2.joined later := by
      simp [Spelling.joined]
    rw [hjoined, hwalk, walkPhrase_comma hidle, hafter, ih next.2 (by decide)]
    simp

end Walk

theorem walkPhrase_keyword {keyword : Token} (hkind : keyword.kind = .keyword)
    (hvalue : keyword.value ∈ ["long", "fixed", "void", "struct"]) (frame : PhraseFrame) :
    (∃ mode : PhraseMode, mode.opened = mode ∧ mode ≠ .idle ∧ ∀ tokens,
      walkPhrase frame .idle false false "" (keyword :: tokens) =
        walkPhrase frame mode true false keyword.value tokens) ∨
    ∃ failure, ∀ tokens, walkPhrase frame .idle false false "" (keyword :: tokens) = throw failure := by
  have hbase (b : BaseType) (h : ∀ tokens, walkPhrase frame .idle false false "" (keyword :: tokens) =
      walkPhrase frame (.base b true) true false keyword.value tokens) :
      ∃ mode : PhraseMode, mode.opened = mode ∧ mode ≠ .idle ∧ ∀ tokens,
        walkPhrase frame .idle false false "" (keyword :: tokens) =
          walkPhrase frame mode true false keyword.value tokens :=
    ⟨.base b true, rfl, by simp, h⟩
  simp only [List.mem_cons, List.not_mem_nil, or_false] at hvalue
  rcases hvalue with hvalue | hvalue | hvalue | hvalue
  · refine .inl (hbase .long fun tokens => ?_)
    conv_lhs => unfold walkPhrase
    simp [hkind, hvalue]
  · refine .inl (hbase .fixed fun tokens => ?_)
    conv_lhs => unfold walkPhrase
    simp [hkind, hvalue]
  · refine .inl (hbase .void fun tokens => ?_)
    conv_lhs => unfold walkPhrase
    simp [hkind, hvalue]
  · by_cases hname : keyword.structName.isEmpty = true
    · refine .inr ⟨.atLine keyword.line .unnamedStruct, fun tokens => ?_⟩
      conv_lhs => unfold walkPhrase
      simp only [hkind, hvalue, hname, if_true]
      rfl
    · refine .inl ⟨.struct keyword.structName keyword.line false false, rfl, by simp, fun tokens => ?_⟩
      conv_lhs => unfold walkPhrase
      simp [hkind, hvalue, hname]

/-- A phrase with several declarators does what the phrases with one declarator each do, one after the
other on the same catalog: it succeeds if all of them do, with their slots in order. -/
theorem Layout.declare_joined (place : Place) {keyword : Token} (hkind : keyword.kind = .keyword)
    (hvalue : keyword.value ∈ ["long", "fixed", "void", "struct"]) (first : Spelling)
    (later : List (Line × Spelling)) :
    Layout.declare place (keyword :: first.joined later) =
      List.flatten <$> (first :: later.map Prod.snd).mapM fun d =>
        Layout.declare place (keyword :: d.tokens) := by
  have hstar : keyword.value ≠ "*" := by
    intro heq
    simp [heq] at hvalue
  have hsingle (d : Spelling) : d.tokens = d.joined [] := by simp [Spelling.joined]
  unfold Layout.declare
  rcases walkPhrase_keyword hkind hvalue { place } with ⟨mode, hopened, hmode, hwalk⟩ | ⟨failure, hwalk⟩
  · have hlay (d : Spelling) : walkPhrase { place } .idle false false "" (keyword :: d.tokens) =
        d.lay { place } mode := by
      rw [hwalk, hsingle, walkPhrase_joined d [] hopened hmode hstar]
      simp
    simp only [hlay]
    rw [hwalk, walkPhrase_joined first later hopened hmode hstar]
  · simp only [hwalk, List.mapM_cons]
    rfl

/-- A declarator with some stars and sizes. -/
def Spelling.of (stars : Nat) (name : String) (sizes : List Word) (line : Line) : Spelling where
  stars := List.replicate stars (.star line)
  name := .ident name line
  brackets := sizes.map (Token.array · line)
  star t ht := by simp [List.eq_of_mem_replicate ht, Token.star]
  ident := rfl
  bracket t ht := by
    obtain ⟨size, -, rfl⟩ := List.mem_map.mp ht
    rfl

/-- Structs with two members. -/
def pairCatalog : Catalog :=
  [.struct
    { name := "S"
      members := [{ name := "a", asmName := "a", kind := .long, type := .long },
        { name := "b", asmName := "b", kind := .long, type := .long }]
      template := { kind := .struct, type := .struct, shape := some "S", size := 2, isSet := true } }]

/-- `struct S *p, s, t[2]` declares a pointer, a value and an array. -/
theorem pairPhrase_joined :
    (Token.struct "S" 1).kind = .keyword ∧
      (Token.struct "S" 1).value ∈ ["long", "fixed", "void", "struct"] ∧
      (result (Layout.declare .global (.struct "S" 1 :: (Spelling.of 1 "p" [] 1).joined
        [(1, .of 0 "s" [] 1), (1, .of 0 "t" [2] 1)])) pairCatalog).1.map (·.map Slot.asmName) =
        .ok ["p", "s", "s_a", "s_b", "t", "t_0", "t_0_a", "t_0_b", "t_1", "t_1_a", "t_1_b"] ∧
      Layout.declare .global (.struct "S" 1 :: (Spelling.of 1 "p" [] 1).joined
        [(1, .of 0 "s" [] 1), (1, .of 0 "t" [2] 1)]) =
        List.flatten <$> [Spelling.of 1 "p" [] 1, .of 0 "s" [] 1, .of 0 "t" [2] 1].mapM fun d =>
          Layout.declare .global (.struct "S" 1 :: d.tokens) :=
  ⟨rfl, by decide, by rfl, Layout.declare_joined .global rfl (by decide) _ _⟩

end Flatword
