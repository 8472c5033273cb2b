import Flatword.Proofs.Blocks

/-!
# Phrases, declarator by declarator

`Declarator.Declares` says once what slots a declarator of a phrase can give, and what shape an array adds to
the catalog. `Session.Accounted` keeps the declarators of all definitions that a session has seen.
-/

namespace Flatword

variable {c c' : Catalog} {d : Declarator} {frame : PhraseFrame} {slots : List Slot}
  {tokens : List Token}

/-! ## Declarators -/

/-- What a declarator gives where the structs of a catalog are known. -/
inductive Declarator.Declares (d : Declarator) (frame : PhraseFrame) (c : Catalog) : Declared → Prop
  | word {x} (hname : x.name = d.name) (hasm : x.asmName = frame.place.stem ++ d.name)
      (harray : x.kind ≠ .array) (hstruct : x.kind ≠ .struct) : Declares d frame c ⟨[x], none⟩
  | struct {S} (hS : Shape.struct S ∈ c) :
      Declares d frame c ⟨instantiate frame.place S d.name, none⟩
  | words {header element type dimensions total}
      (hdimensions : d.dimensions = .ok dimensions) (htotal : arrayTotal? 1 dimensions = some total)
      (hname : header.name = d.name) (hasm : header.asmName = frame.place.stem ++ d.name)
      (hkind : header.kind = .array) (hshape : header.shape = some (frame.shapeStem ++ header.asmName))
      (hsize : header.size = 1)
      (hitem : ∃ item, header.item = some item ∧ item.kind ≠ .struct ∧ item.totalSize = total)
      (helement : element.kind.isRegular = true) :
      Declares d frame c
        ⟨header :: cells header element type (total - 1), some (.ofHeader header dimensions)⟩
  | structs {S head header dimensions total}
      (hS : Shape.struct S ∈ c) (hdimensions : d.dimensions = .ok dimensions)
      (htotal : arrayTotal? S.template.size dimensions = some total) (hpos : S.template.size ≠ 0)
      (hname : header.name = d.name) (hasm : header.asmName = frame.place.stem ++ d.name)
      (hkind : header.kind = .array) (hshape : header.shape = some (frame.shapeStem ++ header.asmName))
      (hsize : header.size = S.template.size)
      (hitem : header.item =
        some { kind := .struct, type := .struct, shape := S.name, totalSize := total })
      (hhead : head = { header with size := 1 }) :
      Declares d frame c
        ⟨head :: (List.range ((total - 1) / S.template.size)).flatMap fun i =>
          instantiate frame.place S s!"{d.name}_{i}", some (.ofHeader header dimensions)⟩

namespace Declarator

variable {d : Declarator} {frame : PhraseFrame} {c : Catalog} {declared : Declared}

theorem declares_base {register : Bool} {b : BaseType} (h : d.base frame register b = .ok declared) :
    d.Declares frame c declared := by
  have hkind : b.template.kind ≠ .array ∧ b.template.kind ≠ .struct ∧ b.template.size = 1 ∧
      b.template.kind.isRegular = true := by
    cases b <;> decide
  obtain ⟨_, _, hdimensions, rfl | ⟨_, _, -, htotal, rfl, rfl⟩⟩ := base_eq_ok h
  · exact .word rfl rfl hkind.1 hkind.2.1
  · exact .words hdimensions htotal rfl rfl rfl rfl hkind.2.2.1 ⟨_, rfl, hkind.2.1, rfl⟩ hkind.2.2.2

theorem declares_struct {structName : String} {line : Line} {shape? : Option StructShape}
    (hshape : ∀ S ∈ shape?, Shape.struct S ∈ c)
    (h : d.struct frame structName line shape? = .ok declared) : d.Declares frame c declared := by
  obtain ⟨_, -, rfl⟩ | ⟨S, hS, rfl⟩ | ⟨S, hS, _, _, _, hdimensions, -, hpos, htotal, rfl, rfl⟩ :=
    struct_eq_ok h
  · exact .word rfl rfl (by simp) (by simp)
  · exact .struct (hshape S hS)
  · exact .structs (hshape S hS) hdimensions htotal hpos rfl rfl rfl rfl rfl rfl rfl

end Declarator

/-! ## Phrases -/

/-- A declarator where it stands, with what it gives. -/
structure Note where
  frame : PhraseFrame
  declarator : Declarator
  declared : Declared

def Declarator.WrittenIn (d : Declarator) (tokens : List Token) : Prop :=
  ∃ front t rest, tokens = front ++ t :: rest ∧ t.kind = .ident ∧ d.name = t.value ∧
    d.brackets = rest.takeWhile (·.kind = .brackets)

/-- A declarator stands in the phrase of a definition. -/
inductive Note.StandsIn (n : Note) : Place × Definition → Prop
  | phrase {place tokens} (hframe : n.frame = { place })
      (hwritten : n.declarator.WrittenIn tokens) : StandsIn n (place, Definition.variables tokens)
  | struct {place name members line}
      (hframe : n.frame = { place := { scope := place.scope }, shapeStem := place.stem ++ name ++ "_" })
      (hwritten : n.declarator.WrittenIn members) : StandsIn n (place, Definition.struct name members line)

/-- The shapes of the arrays among declarators, in order. -/
def Note.shapes (notes : List Note) : List ArrayShape :=
  notes.filterMap (·.declared.shape)

@[simp]
theorem Note.shapes_append (notes notes' : List Note) :
    Note.shapes (notes ++ notes') = Note.shapes notes ++ Note.shapes notes' :=
  List.filterMap_append

/-- A phrase gives what its declarators give, one after the other. -/
structure Phrase (frame : PhraseFrame) (tokens : List Token) (c : Catalog) (notes : List Note)
    (slots : List Slot) (c' : Catalog) : Prop where
  slots_eq : slots = notes.flatMap (·.declared.slots)
  catalog_eq : c' = c ++ (Note.shapes notes).map Shape.array
  written : ∀ n ∈ notes, n.frame = frame ∧ n.declarator.WrittenIn tokens ∧
    n.declarator.Declares frame c n.declared

theorem Declarator.WrittenIn.cons (h : d.WrittenIn tokens) (t : Token) : d.WrittenIn (t :: tokens) := by
  obtain ⟨front, t', rest, rfl, h⟩ := h
  exact ⟨t :: front, t', rest, rfl, h⟩

theorem Declarator.Declares.mono {declared : Declared} (h : d.Declares frame c declared)
    (hc : ∀ S, Shape.struct S ∈ c → Shape.struct S ∈ c') : d.Declares frame c' declared := by
  cases h with
  | word hname hasm harray hstruct => exact .word hname hasm harray hstruct
  | struct hS => exact .struct (hc _ hS)
  | words hdimensions htotal hname hasm hkind hshape hsize hitem helement =>
    exact .words hdimensions htotal hname hasm hkind hshape hsize hitem helement
  | structs hS hdimensions htotal hpos hname hasm hkind hshape hsize hitem hhead =>
    exact .structs (hc _ hS) hdimensions htotal hpos hname hasm hkind hshape hsize hitem hhead

namespace Phrase

variable {frame : PhraseFrame} {t : Token} {rest : List Token} {c c' : Catalog} {notes : List Note}
  {slots : List Slot}

theorem nil (frame : PhraseFrame) (tokens : List Token) (c : Catalog) :
    Phrase frame tokens c [] [] c :=
  ⟨rfl, by simp [Note.shapes], by simp⟩

theorem skip (h : Phrase frame rest c notes slots c') : Phrase frame (t :: rest) c notes slots c' :=
  { h with written := fun n hn => ⟨(h.written n hn).1, (h.written n hn).2.1.cons t, (h.written n hn).2.2⟩ }

theorem cons {declared : Declared} {d : Declarator} (hkind : t.kind = .ident) (hname : d.name = t.value)
    (hbrackets : d.brackets = rest.takeWhile (·.kind = .brackets))
    (hd : d.Declares frame c declared)
    (h : Phrase frame rest (c ++ declared.shape.toList.map Shape.array) notes slots c') :
    Phrase frame (t :: rest) c (⟨frame, d, declared⟩ :: notes) (declared.slots ++ slots) c' where
  slots_eq := by rw [h.slots_eq, List.flatMap_cons]
  catalog_eq := by
    rw [h.catalog_eq]
    cases hshape : declared.shape <;> simp [Note.shapes, hshape]
  written n hn := by
    rcases List.mem_cons.mp hn with rfl | hn
    · exact ⟨rfl, ⟨[], t, rest, rfl, hkind, hname, hbrackets⟩, hd⟩
    · obtain ⟨hframe, hwritten, hdeclares⟩ := h.written n hn
      exact ⟨hframe, hwritten.cons t, hdeclares.mono fun S hS => by simpa using hS⟩

end Phrase

theorem result_record {declared : Except Failure Declared}
    (h : result (Declared.record declared) c = (.ok slots, c')) :
    ∃ d, declared = .ok d ∧ slots = d.slots ∧ c' = c ++ d.shape.toList.map Shape.array := by
  unfold Declared.record at h
  cases declared with
  | error failure => simp at h
  | ok d =>
    simp only [result_bind, result_modify, result_pure] at h
    obtain ⟨hslots, rfl⟩ := Prod.mk.inj h
    exact ⟨d, rfl, (Except.ok.inj hslots).symm, rfl⟩

theorem exists_phrase {mode : PhraseMode} {first register : Bool} {previous : String}
    (h : result (walkPhrase frame mode first register previous tokens) c = (.ok slots, c')) :
    ∃ notes, Phrase frame tokens c notes slots c' := by
  induction tokens generalizing mode first register previous c slots with
  | nil =>
    obtain ⟨hslots, rfl⟩ := Prod.mk.inj h
    obtain rfl := Except.ok.inj hslots
    exact ⟨[], .nil frame [] c⟩
  | cons t rest ih =>
    have hskip {mode : PhraseMode} {first register : Bool} {previous : String}
        (h : result (walkPhrase frame mode first register previous rest) c = (.ok slots, c')) :
        ∃ notes, Phrase frame (t :: rest) c notes slots c' :=
      (ih h).imp fun _ => Phrase.skip
    -- A declarator comes first, and the rest is laid out with its shape in the catalog.
    have hdeclarator {d : Declarator} {declared : Except Failure Declared} {later : Layout (List Slot)}
        (hkind : t.kind = .ident) (hname : d.name = t.value)
        (hbrackets : d.brackets = rest.takeWhile (·.kind = .brackets))
        (hdeclared : ∀ given, declared = .ok given → d.Declares frame c given)
        (hlater : ∀ {c₁ more}, result later c₁ = (.ok more, c') →
          ∃ notes, Phrase frame rest c₁ notes more c')
        (h : result (Declared.record declared >>= fun slots => later >>= fun more =>
          pure (slots ++ more)) c = (.ok slots, c')) :
        ∃ notes, Phrase frame (t :: rest) c notes slots c' := by
      obtain ⟨_, c₁, hrecord, h⟩ := result_bind_eq_ok.mp h
      obtain ⟨given, hgiven, rfl, rfl⟩ := result_record hrecord
      obtain ⟨more, c₂, hmore, h⟩ := result_bind_eq_ok.mp h
      obtain ⟨hslots, rfl⟩ := Prod.mk.inj h
      obtain rfl := Except.ok.inj hslots
      obtain ⟨notes, hnotes⟩ := hlater hmore
      exact ⟨_, .cons hkind hname hbrackets (hdeclared given hgiven) hnotes⟩
    unfold walkPhrase at h
    dsimp only at h
    split at h
    · split at h
      case h_4 =>
        split at h
        · simp at h
        · exact hskip h
      case h_5 =>
        split at h
        · simp at h
        · exact hskip h
      all_goals exact hskip h
    · obtain ⟨hslots, rfl⟩ := Prod.mk.inj h
      obtain rfl := Except.ok.inj hslots
      exact ⟨[], .nil frame _ c⟩
    · split at h
      · simp at h
      · exact hskip h
    · next hident =>
      exact hdeclarator hident rfl rfl (fun given hgiven => Declarator.declares_base hgiven) ih h
    · exact hskip h
    · split at h
      · simp at h
      · exact hskip h
    · next hident =>
      split at h
      · simp at h
      obtain ⟨c₁, _, hget, h⟩ := result_bind_eq_ok.mp h
      obtain ⟨hc, rfl⟩ := Prod.mk.inj hget
      obtain rfl := Except.ok.inj hc
      exact hdeclarator hident rfl rfl
        (fun given hgiven => Declarator.declares_struct (fun S => Catalog.mem_of_findStruct?) hgiven) ih h
    · split at h
      · exact hskip h
      · split at h
        · exact hskip h
        · simp at h

/-! ## Sessions -/

namespace Session

/-- A session after a list of definitions, all of which have succeeded. -/
inductive Defined (options : Options) : List (Place × Definition) → Session → Prop
  | start {s} (h : Session.start options = .ok s) : Defined options [] s
  | define {defined s t} (hs : Defined options defined s)
      {place definition}
      (h : result (Session.define place definition) s = (.ok (), t)) :
      Defined options (defined ++ [(place, definition)]) t

/-- A session with the declarators of all definitions that it has seen. -/
inductive Accounted (options : Options) : List Note → Session → Prop
  | start {s} (h : Session.start options = .ok s) : Accounted options [] s
  | phrase {notes new s c place tokens slots} (hs : Accounted options notes s)
      (hphrase : Phrase { place } tokens s.catalog new slots c)
      (hnone : (s.table.append slots).2 = none) :
      Accounted options (notes ++ new) { s with table := (s.table.append slots).1, catalog := c }
  | struct {notes new s c place S members} (hs : Accounted options notes s)
      (hphrase : Phrase { place, shapeStem := S.name ++ "_" } members s.catalog new S.members c)
      (hstem : place.stem = "") (hnew : s.catalog.findStruct? S.name "" = none)
      (hkind : S.template.kind = .struct) (hname : S.template.name = "")
      (hshape : S.template.shape = some S.name)
      (hsize : S.template.size = wordCount (S.members.map Slot.kind)) :
      Accounted options (notes ++ new) { s with catalog := c ++ [.struct S] }

variable {options : Options}

theorem Accounted.declare {notes : List Note} {s t : Session} {place : Place} {tokens : List Token}
    {slots : List Slot} (hs : Accounted options notes s)
    (h : result (Session.declare place tokens) s = (.ok slots, t)) :
    ∃ new, Accounted options (notes ++ new) t ∧
      ∀ n ∈ new, n.StandsIn (place, Definition.variables tokens) := by
  unfold Session.declare at h
  obtain ⟨declared, u, hlift, h⟩ := result_bind_eq_ok.mp h
  rw [result_liftLayout] at hlift
  obtain ⟨hdeclared, rfl⟩ := Prod.mk.inj hlift
  obtain ⟨new, hphrase⟩ := exists_phrase (Prod.ext hdeclared rfl)
  simp only [result_bind, result_get, result_set] at h
  split at h
  · next hnone =>
    obtain ⟨-, rfl⟩ := Prod.mk.inj h
    refine ⟨new, hs.phrase hphrase hnone, fun n hn => ?_⟩
    obtain ⟨hframe, hwritten, -⟩ := hphrase.written n hn
    exact .phrase hframe hwritten
  · simp at h

theorem Accounted.defineStruct {notes : List Note} {s t : Session} {place : Place} {name : String}
    {members : List Token} {line : Line} (hs : Accounted options notes s)
    (h : result (liftLayout (Layout.defineStruct place name members line)) s = (.ok (), t)) :
    ∃ new, Accounted options (notes ++ new) t ∧
      ∀ n ∈ new, n.StandsIn (place, Definition.struct name members line) := by
  rw [result_liftLayout] at h
  obtain ⟨hdefined, rfl⟩ := Prod.mk.inj h
  obtain ⟨c, hc⟩ : ∃ c, result (Layout.defineStruct place name members line) s.catalog = (.ok (), c) :=
    ⟨_, Prod.ext hdefined rfl⟩
  rw [hc]
  unfold Layout.defineStruct at hc
  simp only [result_bind, result_get] at hc
  split at hc
  · simp at hc
  next hnew =>
  obtain ⟨slots, c₁, hwalk, hc⟩ := result_bind_eq_ok.mp hc
  obtain ⟨new, hphrase⟩ := exists_phrase hwalk
  obtain ⟨-, rfl⟩ := Prod.mk.inj hc
  have hsize (slots : List Slot) :
      slots.foldr (·.kind.width + ·) 0 = wordCount (slots.map Slot.kind) := by
    induction slots with
    | nil => rfl
    | cons s rest ih => rw [List.foldr_cons, ih, List.map_cons, wordCount_cons]
  refine ⟨new, hs.struct hphrase rfl (by simpa using hnew) rfl rfl rfl (hsize slots), fun n hn => ?_⟩
  obtain ⟨hframe, hwritten, -⟩ := hphrase.written n hn
  exact .struct hframe hwritten

theorem Defined.exists_accounted {defined : List (Place × Definition)} {s : Session}
    (h : Defined options defined s) :
    ∃ notes, Accounted options notes s ∧ ∀ n ∈ notes, ∃ d ∈ defined, n.StandsIn d := by
  induction h with
  | start h => exact ⟨[], .start h, by simp⟩
  | @define defined s t hs place definition h ih =>
    obtain ⟨notes, hnotes, hstands⟩ := ih
    have hadd {new : List Note} (hnew : ∀ n ∈ new, n.StandsIn (place, definition)) :
        ∀ n ∈ notes ++ new, ∃ d ∈ defined ++ [(place, definition)], n.StandsIn d := by
      intro n hn
      rcases List.mem_append.mp hn with hn | hn
      · obtain ⟨d, hd, hn⟩ := hstands n hn
        exact ⟨d, List.mem_append_left _ hd, hn⟩
      · exact ⟨(place, definition), by simp, hnew n hn⟩
    rcases definition with tokens | ⟨name, members, line⟩
    · obtain ⟨slots, u, hdeclare, hpure⟩ := result_bind_eq_ok.mp h
      obtain ⟨-, rfl⟩ := Prod.mk.inj hpure
      obtain ⟨new, hnew, hin⟩ := hnotes.declare hdeclare
      exact ⟨_, hnew, hadd hin⟩
    · obtain ⟨new, hnew, hin⟩ := hnotes.defineStruct h
      exact ⟨_, hnew, hadd hin⟩

end Session

end Flatword
