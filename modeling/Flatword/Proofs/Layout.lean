import Mathlib.Data.List.Nodup
import Flatword.Compile

/-!
# The table that declarations give

Slots get their addresses in the order in which they are declared, and a name is refused when it is
taken. So in every table that a program gives, the names differ, the words do not overlap, and only
the registers have the names of registers.
-/

namespace Flatword

variable {shape : StructShape} {tokens tokens' : List Token} {c : Catalog} {name : String}
  {place : Place} {γ : Type}

/-! ## Steps that keep a property of the state -/

section Keeps

variable {ε σ α β : Type} {P : σ → Prop} {Q R : α → Prop}

/-- What a step makes of a state. -/
def result (m : ExceptT ε (StateM σ) α) (s : σ) : Except ε α × σ :=
  m.run.run s

/-- Whether a step fails or not, the state keeps a property, and what the step gives has another. -/
def Keeps (P : σ → Prop) (m : ExceptT ε (StateM σ) α) (Q : α → Prop) : Prop :=
  ∀ s, P s → P (result m s).2 ∧ ∀ a, (result m s).1 = .ok a → Q a

theorem result_bind (m : ExceptT ε (StateM σ) α) (k : α → ExceptT ε (StateM σ) β) (s : σ) :
    result (m >>= k) s =
      match result m s with
      | (.ok a, t) => result (k a) t
      | (.error e, t) => (.error e, t) := by
  simp only [result, ExceptT.run_bind, StateT.run_bind]
  rcases m.run.run s with ⟨_ | a, t⟩ <;> rfl

theorem Keeps.mono {m : ExceptT ε (StateM σ) α} (h : Keeps P m Q) (hQ : ∀ a, Q a → R a) :
    Keeps P m R :=
  fun s hs => ⟨(h s hs).1, fun a ha => hQ a ((h s hs).2 a ha)⟩

theorem keeps_pure {a : α} (h : Q a) : Keeps P (pure a : ExceptT ε (StateM σ) α) Q := by
  intro s hs
  refine ⟨hs, fun b hb => ?_⟩
  obtain rfl : a = b := Except.ok.inj hb
  exact h

theorem keeps_throw (e : ε) : Keeps P (throw e : ExceptT ε (StateM σ) α) Q :=
  fun _ hs => ⟨hs, nofun⟩

theorem keeps_bind {m : ExceptT ε (StateM σ) α} {k : α → ExceptT ε (StateM σ) β} {S : β → Prop}
    (hm : Keeps P m Q) (hk : ∀ a, Q a → Keeps P (k a) S) : Keeps P (m >>= k) S := by
  intro s hs
  obtain ⟨hP, hQ⟩ := hm s hs
  rw [result_bind]
  split
  · next a t heq =>
    rw [heq] at hP hQ
    exact hk a (hQ a rfl) t hP
  · next e t heq =>
    rw [heq] at hP
    exact ⟨hP, nofun⟩

theorem keeps_get : Keeps P (get : ExceptT ε (StateM σ) σ) P := by
  intro s hs
  refine ⟨hs, fun t ht => ?_⟩
  obtain rfl : s = t := Except.ok.inj ht
  exact hs

theorem keeps_set {s : σ} (h : P s) :
    Keeps P (set s : ExceptT ε (StateM σ) PUnit) fun _ => True :=
  fun _ _ => ⟨h, fun _ _ => trivial⟩

theorem keeps_modify {g : σ → σ} (h : ∀ s, P s → P (g s)) :
    Keeps P (modify g : ExceptT ε (StateM σ) PUnit) fun _ => True :=
  fun s hs => ⟨h s hs, fun _ _ => trivial⟩

theorem keeps_forM {f : γ → ExceptT ε (StateM σ) PUnit} {xs : List γ}
    (h : ∀ x ∈ xs, Keeps P (f x) fun _ => True) : Keeps P (xs.forM f) fun _ => True := by
  induction xs with
  | nil => exact keeps_pure trivial
  | cons x xs ih =>
    rw [List.forM_eq_forM, List.forM_cons]
    exact keeps_bind (h x (by simp)) fun _ _ => ih fun y hy => h y (by simp [hy])

theorem keeps_mapM {f : γ → ExceptT ε (StateM σ) α} {xs : List γ}
    (h : ∀ x ∈ xs, Keeps P (f x) fun _ => True) : Keeps P (xs.mapM f) fun _ => True := by
  induction xs with
  | nil => exact keeps_pure trivial
  | cons x xs ih =>
    rw [List.mapM_cons]
    exact keeps_bind (h x (by simp)) fun _ _ =>
      keeps_bind (ih fun y hy => h y (by simp [hy])) fun _ _ => keeps_pure trivial

/-! ## Successful steps -/

variable {m : ExceptT ε (StateM σ) α} {s t : σ} {a : α}

@[simp]
theorem result_pure (a : α) : result (pure a : ExceptT ε (StateM σ) α) s = (.ok a, s) := rfl

@[simp]
theorem result_get : result (get : ExceptT ε (StateM σ) σ) s = (.ok s, s) := rfl

@[simp]
theorem result_set (t : σ) : result (set t : ExceptT ε (StateM σ) PUnit) s = (.ok ⟨⟩, t) := rfl

@[simp]
theorem result_modify (g : σ → σ) :
    result (modify g : ExceptT ε (StateM σ) PUnit) s = (.ok ⟨⟩, g s) := rfl

@[simp]
theorem result_throw (e : ε) : result (throw e : ExceptT ε (StateM σ) α) s = (.error e, s) := rfl

theorem result_bind_eq_ok {k : α → ExceptT ε (StateM σ) β} {b : β} :
    result (m >>= k) s = (.ok b, t) ↔
      ∃ a u, result m s = (.ok a, u) ∧ result (k a) u = (.ok b, t) := by
  rw [result_bind]
  rcases result m s with ⟨_ | a, u⟩ <;> simp [and_assoc]

theorem result_forM {f : γ → ExceptT ε (StateM σ) PUnit} {xs : List γ}
    (h : ∀ x ∈ xs, ∀ {s t}, P s → result (f x) s = (.ok ⟨⟩, t) → P t) (hs : P s)
    (hall : result (xs.forM f) s = (.ok ⟨⟩, t)) : P t := by
  induction xs generalizing s with
  | nil =>
    obtain ⟨-, rfl⟩ := Prod.mk.inj hall
    exact hs
  | cons x xs ih =>
    rw [List.forM_eq_forM, List.forM_cons, result_bind_eq_ok] at hall
    obtain ⟨_, u, hx, hall⟩ := hall
    exact ih (fun y hy => h y (by simp [hy])) (h x (by simp) hs hx) hall

end Keeps

/-! ## Slots that declarations give -/

structure Slot.Declarable (s : Slot) : Prop where
  register : s.kind ≠ .register
  constant : s.kind ≠ .constant
  void : s.kind ≠ .void
  offset : s.offset = none
  content : s.content = none

theorem isRegisterName_eq_false (h : '_' ∈ name.toList) : isRegisterName name = false := by
  unfold isRegisterName
  split
  · next d hd =>
    rw [hd] at h
    obtain rfl : '_' = d := by simpa using h
    decide
  · rfl

def Catalog.Sound (c : Catalog) : Prop :=
  ∀ shape, Shape.struct shape ∈ c → ∀ s ∈ shape.template :: shape.members, s.Declarable

theorem Catalog.mem_of_findStructExact? (h : c.findStructExact? name = some shape) :
    Shape.struct shape ∈ c := by
  obtain ⟨entry, hentry, hfound⟩ := List.exists_of_findSome?_eq_some h
  split at hfound
  · split at hfound
    · obtain rfl := Option.some.inj hfound
      exact hentry
    · simp at hfound
  · simp at hfound

theorem Catalog.mem_of_findStruct? {name stem : String} (h : c.findStruct? name stem = some shape) :
    Shape.struct shape ∈ c := by
  rcases Option.or_eq_some_iff.mp h with h | ⟨-, h⟩ <;> exact mem_of_findStructExact? h

theorem Catalog.mem_of_bind_findArray? {name : Option String} {shape : ArrayShape}
    (h : name.bind c.findArray? = some shape) : Shape.array shape ∈ c := by
  obtain ⟨name, -, hfound⟩ := Option.bind_eq_some_iff.mp h
  obtain ⟨entry, hentry, hfound⟩ := List.exists_of_findSome?_eq_some hfound
  split at hfound
  · split at hfound
    · rwa [← Option.some.inj hfound]
    · simp at hfound
  · simp at hfound

/-- The name of a slot in the assembly is put together, or it is that of a token at this place. -/
def Slot.NamedBy (s : Slot) (place : Place) (tokens : List Token) : Prop :=
  isRegisterName s.asmName = false ∨
    ∃ t ∈ tokens, t.kind = .ident ∧ s.asmName = place.stem ++ t.value

theorem Slot.NamedBy.mono {s : Slot} (h : s.NamedBy place tokens) (hsub : tokens ⊆ tokens') :
    s.NamedBy place tokens' :=
  h.imp_right fun ⟨t, ht, hk, hs⟩ => ⟨t, hsub ht, hk, hs⟩

/-- An array shape as a declarator makes it: with one dimension at least, and the strides that follow
from the size of an element. -/
structure ArrayShape.Formed (shape : ArrayShape) : Prop where
  dimensions : shape.dimensions ≠ []
  strides : shape.strides = stridesOf (UInt64.ofNat shape.template.size) shape.dimensions

theorem ArrayShape.length_stridesOf (size : Word) (dimensions : List Word) :
    (stridesOf size dimensions).length = dimensions.length := by
  induction dimensions with
  | nil => rfl
  | cons _ rest ih => rw [stridesOf, List.length_cons, ih, List.length_cons]

theorem ArrayShape.eq_of_ofHeader? {header : Slot} {dimensions : List Word} {shape : ArrayShape}
    (h : ofHeader? header dimensions = some shape) : ofHeader header dimensions = shape := by
  obtain ⟨_, -, heq⟩ := Option.map_eq_some_iff.mp h
  exact heq

theorem ArrayShape.formed_ofHeader (header : Slot) {dimensions : List Word}
    (h : dimensions.isEmpty = false) : (ofHeader header dimensions).Formed :=
  ⟨by simpa [ofHeader] using h, rfl⟩

namespace Declarator

variable {b : BaseType} {line : Line} {register : Bool} {shape? : Option StructShape}
  {structName : String} {d : Declarator} {frame : PhraseFrame} {declared : Declared} {s : Slot}

theorem base_eq_ok (h : d.base frame register b = .ok declared) :
    ∃ dimensions type, d.dimensions = .ok dimensions ∧
      (declared = ⟨[{ d.named frame.place b.template with type, wantsRegister := register }], none⟩ ∨
        ∃ total header, dimensions.isEmpty = false ∧ arrayTotal? 1 dimensions = some total ∧
          header = { d.named frame.place b.template with
            wantsRegister := register
            kind := .array
            type := type.pointer
            shape := some (frame.shapeStem ++ (frame.place.stem ++ d.name))
            item := some {
              kind := b.template.kind, type, shape := frame.shapeStem ++ (frame.place.stem ++ d.name)
              totalSize := total } } ∧
          declared = ⟨header :: cells header b.template type (total - 1),
            some (.ofHeader header dimensions)⟩) := by
  simp only [base, bind, Except.bind] at h
  split at h
  · cases h
  next dimensions hdimensions =>
  refine ⟨dimensions, if d.isPointer then b.template.type.pointer else b.template.type,
    hdimensions, ?_⟩
  split at h
  · cases h
  split at h
  · exact .inl (Except.ok.inj h).symm
  next hne =>
  split at h
  · cases h
  split at h
  · cases h
  next total htotal =>
  split at h
  · cases h
  next hshape =>
  obtain rfl := ArrayShape.eq_of_ofHeader? hshape
  exact .inr ⟨total, _, by simpa using hne, htotal, rfl, (Except.ok.inj h).symm⟩

theorem struct_eq_ok (h : d.struct frame structName line shape? = .ok declared) :
    (∃ template : Slot, ((∃ S ∈ shape?, template = S.template) ∨
        template = { kind := .structRef, type := .structPtr, shape := some structName }) ∧
      declared = ⟨[{ d.named frame.place template with
        kind := .structRef, type := .structPtr, size := 1 }], none⟩) ∨
    (∃ S ∈ shape?, declared = ⟨instantiate frame.place S d.name, none⟩) ∨
    ∃ S ∈ shape?, ∃ dimensions total header, d.dimensions = .ok dimensions ∧
      dimensions.isEmpty = false ∧
      S.template.size ≠ 0 ∧ arrayTotal? S.template.size dimensions = some total ∧
      header = { d.named frame.place S.template with
        kind := .array
        type := .structPtr
        shape := some (frame.shapeStem ++ (frame.place.stem ++ d.name))
        item := some { kind := .struct, type := .struct, shape := S.name, totalSize := total } } ∧
      declared = ⟨{ header with size := 1 } ::
        (List.range ((total - 1) / S.template.size)).flatMap fun i =>
          instantiate frame.place S s!"{d.name}_{i}", some (.ofHeader header dimensions)⟩ := by
  simp only [struct, bind, Except.bind] at h
  split at h
  · cases h
  next dimensions hdimensions =>
  split at h
  · split at h
    · refine .inl ⟨_, ?_, (Except.ok.inj h).symm⟩
      cases shape? with
      | none => exact .inr rfl
      | some S => exact .inl ⟨S, rfl, rfl⟩
    · split at h
      · next S => exact .inr (.inl ⟨S, rfl, (Except.ok.inj h).symm⟩)
      · cases h
  next hne =>
  split at h
  · cases h
  next S =>
  split at h
  · cases h
  split at h
  · cases h
  next hpos =>
  split at h
  · cases h
  next total htotal =>
  split at h
  · cases h
  next hshape =>
  obtain rfl := ArrayShape.eq_of_ofHeader? hshape
  exact .inr (.inr ⟨S, rfl, dimensions, total, _, hdimensions, by simpa using hne, hpos, htotal, rfl,
    (Except.ok.inj h).symm⟩)

theorem formed_base (h : d.base frame register b = .ok declared) :
    ∀ shape ∈ declared.shape, shape.Formed := by
  obtain ⟨_, _, -, rfl | ⟨_, _, hne, -, -, rfl⟩⟩ := base_eq_ok h
  · simp
  · simpa using ArrayShape.formed_ofHeader _ hne

theorem formed_struct (h : d.struct frame structName line shape? = .ok declared) :
    ∀ shape ∈ declared.shape, shape.Formed := by
  obtain ⟨_, -, rfl⟩ | ⟨_, -, rfl⟩ | ⟨_, -, _, _, _, -, hne, -, -, -, rfl⟩ := struct_eq_ok h
  · simp
  · simp
  · simpa using ArrayShape.formed_ofHeader _ hne

theorem declarable_template (b : BaseType) : b.template.Declarable := by
  cases b <;> constructor <;> simp [BaseType.template]

theorem declarable_cells {header element : Slot} {type : ValueType} {count : Nat}
    (he : element.Declarable) (h : s ∈ cells header element type count) :
    s.Declarable ∧ isRegisterName s.asmName = false := by
  obtain ⟨i, -, rfl⟩ := List.mem_map.mp h
  exact ⟨⟨he.1, he.2, he.3, he.4, he.5⟩, isRegisterName_eq_false (by simp [toString])⟩

theorem declarable_base (h : d.base frame register b = .ok declared) (hs : s ∈ declared.slots) :
    s.Declarable ∧
      (isRegisterName s.asmName = false ∨ s.asmName = frame.place.stem ++ d.name) := by
  have helement := declarable_template b
  obtain ⟨_, _, -, rfl | ⟨_, _, -, -, rfl, rfl⟩⟩ := base_eq_ok h
  · obtain rfl := List.mem_singleton.mp hs
    exact ⟨⟨helement.1, helement.2, helement.3, helement.4, helement.5⟩, .inr rfl⟩
  · rcases List.mem_cons.mp hs with rfl | hs
    · exact ⟨⟨nofun, nofun, nofun, helement.4, helement.5⟩, .inr rfl⟩
    · exact (declarable_cells helement hs).imp_right .inl

theorem declarable_instantiate {place : Place} {shape : StructShape} {name : String}
    (hshape : ∀ s ∈ shape.template :: shape.members, s.Declarable)
    (h : s ∈ instantiate place shape name) :
    s.Declarable ∧ (isRegisterName s.asmName = false ∨ s.asmName = place.stem ++ name) := by
  obtain ⟨member, hmember, rfl⟩ := List.mem_map.mp h
  obtain ⟨h₁, h₂, h₃, h₄, h₅⟩ := hshape member hmember
  refine ⟨⟨h₁, h₂, h₃, h₄, h₅⟩, ?_⟩
  dsimp only
  split
  · exact .inr rfl
  · exact .inl (isRegisterName_eq_false (by simp [toString]))

theorem declarable_struct
    (hshape : ∀ shape ∈ shape?, ∀ s ∈ shape.template :: shape.members, s.Declarable)
    (h : d.struct frame structName line shape? = .ok declared) (hs : s ∈ declared.slots) :
    s.Declarable ∧
      (isRegisterName s.asmName = false ∨ s.asmName = frame.place.stem ++ d.name) := by
  obtain ⟨template, htemplate, rfl⟩ | ⟨S, hS, rfl⟩ | ⟨S, hS, _, total, _, -, -, -, -, rfl, rfl⟩ :=
    struct_eq_ok h
  · obtain rfl := List.mem_singleton.mp hs
    rcases htemplate with ⟨S, hS, rfl⟩ | rfl
    · have htemplate := hshape S hS _ (List.mem_cons_self ..)
      exact ⟨⟨nofun, nofun, nofun, htemplate.offset, htemplate.content⟩, .inr rfl⟩
    · exact ⟨⟨nofun, nofun, nofun, rfl, rfl⟩, .inr rfl⟩
  · exact declarable_instantiate (hshape S hS) hs
  · have htemplate := hshape S hS _ (List.mem_cons_self ..)
    rcases List.mem_cons.mp hs with rfl | hs
    · exact ⟨⟨nofun, nofun, nofun, htemplate.offset, htemplate.content⟩, .inr rfl⟩
    · obtain ⟨i, -, hs⟩ := List.mem_flatMap.mp hs
      obtain ⟨hs, hname | hname⟩ := declarable_instantiate (hshape S hS) hs
      · exact ⟨hs, .inl hname⟩
      · exact ⟨hs, .inl (isRegisterName_eq_false (by simp [hname, toString]))⟩

end Declarator

/-! ## Phrases -/

def DeclaredBy (place : Place) (tokens : List Token) (slots : List Slot) : Prop :=
  ∀ s ∈ slots, s.Declarable ∧ s.NamedBy place tokens

theorem DeclaredBy.mono {slots : List Slot} (h : DeclaredBy place tokens slots)
    (hsub : tokens ⊆ tokens') : DeclaredBy place tokens' slots :=
  fun s hs => ⟨(h s hs).1, (h s hs).2.mono hsub⟩

theorem DeclaredBy.append {first later : List Slot} (h : DeclaredBy place tokens first)
    (h' : DeclaredBy place tokens later) : DeclaredBy place tokens (first ++ later) := by
  intro s hs
  rcases List.mem_append.mp hs with hs | hs
  · exact h s hs
  · exact h' s hs

theorem Catalog.Sound.append {c c' : Catalog} (h : c.Sound) (h' : Catalog.Sound c') :
    Catalog.Sound (c ++ c') := by
  intro shape hs
  rcases List.mem_append.mp hs with hs | hs
  · exact h shape hs
  · exact h' shape hs

section Phrases

variable {P : Catalog → Prop}

theorem keeps_record (hP : ∀ (c : Catalog) (shapes : List ArrayShape), P c →
    (∀ shape ∈ shapes, shape.Formed) → P (c ++ shapes.map Shape.array))
    {declared : Except Failure Declared} {Q : List Slot → Prop}
    (hformed : ∀ d, declared = .ok d → ∀ shape ∈ d.shape, shape.Formed)
    (h : ∀ d, declared = .ok d → Q d.slots) : Keeps P (Declared.record declared) Q := by
  unfold Declared.record
  cases declared with
  | error failure => exact keeps_throw failure
  | ok d =>
    have hshapes : ∀ shape ∈ d.shape.toList, shape.Formed := fun shape hshape =>
      hformed d rfl shape (Option.mem_toList.mp hshape)
    exact keeps_bind (keeps_modify fun c hc => hP c d.shape.toList hc hshapes) fun _ _ =>
      keeps_pure (h d rfl)

/-- A phrase gives the slots of its declarators one after the other, so that what all of these have
together is found declarator by declarator. -/
theorem keeps_walkPhrase_of {Q : List Token → List Slot → Prop} (frame : PhraseFrame)
    (hP : ∀ (c : Catalog) (shapes : List ArrayShape), P c → (∀ shape ∈ shapes, shape.Formed) →
      P (c ++ shapes.map Shape.array))
    (hnil : ∀ tokens, Q tokens [])
    (happend : ∀ {tokens first later}, Q tokens first → Q tokens later → Q tokens (first ++ later))
    (hmono : ∀ {tokens tokens' slots}, tokens ⊆ tokens' → Q tokens slots → Q tokens' slots)
    (hbase : ∀ (t : Token) (d : Declarator) (register : Bool) (b : BaseType) (declared : Declared),
      t.kind = .ident → d.name = t.value → d.base frame register b = .ok declared →
        Q [t] declared.slots)
    (hstruct : ∀ (c : Catalog) (t : Token) (d : Declarator) (name : String) (line : Line)
      (declared : Declared), P c → t.kind = .ident → d.name = t.value →
        d.struct frame name line (c.findStruct? name frame.place.stem) = .ok declared →
        Q [t] declared.slots)
    (mode : PhraseMode) (first register : Bool) (previous : String) (tokens : List Token) :
    Keeps P (walkPhrase frame mode first register previous tokens) (Q tokens) := by
  induction tokens generalizing mode first register previous with
  | nil => exact keeps_pure (hnil [])
  | cons t rest ih =>
    have hrest (mode : PhraseMode) (first register : Bool) (previous : String) :
        Keeps P (walkPhrase frame mode first register previous rest) (Q (t :: rest)) :=
      (ih mode first register previous).mono fun _ => hmono (List.subset_cons_self t rest)
    -- The slots of a declarator come before those of the rest.
    have hdeclarator {declared : Except Failure Declared} {later : Layout (List Slot)}
        (hformed : ∀ d, declared = .ok d → ∀ shape ∈ d.shape, shape.Formed)
        (hdeclared : ∀ d, declared = .ok d → Q [t] d.slots) (hlater : Keeps P later (Q (t :: rest))) :
        Keeps P
          (Declared.record declared >>= fun slots => later >>= fun more => pure (slots ++ more))
          (Q (t :: rest)) :=
      keeps_bind (keeps_record hP hformed fun d hd => hmono (by simp) (hdeclared d hd))
        fun slots hslots => keeps_bind hlater fun more hmore => keeps_pure (happend hslots hmore)
    unfold walkPhrase
    dsimp only
    split
    · split
      case h_4 =>
        split
        · exact keeps_throw _
        · exact hrest _ _ _ _
      case h_5 =>
        split
        · exact keeps_throw _
        · exact hrest _ _ _ _
      all_goals exact hrest _ _ _ _
    · exact keeps_pure (hnil _)
    · split
      · exact keeps_throw _
      · exact hrest _ _ _ _
    · next hident =>
      exact hdeclarator (fun _ => Declarator.formed_base)
        (fun d hd => hbase t _ register _ d hident rfl hd) (hrest _ _ _ _)
    · exact hrest _ _ _ _
    · split
      · exact keeps_throw _
      · exact hrest _ _ _ _
    · next hident =>
      split
      · exact keeps_throw _
      · refine keeps_bind keeps_get fun c hc => ?_
        exact hdeclarator (fun _ => Declarator.formed_struct)
          (fun d hd => hstruct c t _ _ _ d hc hident rfl hd) (hrest _ _ _ _)
    · split
      · exact hrest _ _ _ _
      · split
        · exact hrest _ _ _ _
        · exact keeps_throw _

end Phrases

theorem keeps_walkPhrase (frame : PhraseFrame) (mode : PhraseMode) (first register : Bool)
    (previous : String) (tokens : List Token) :
    Keeps Catalog.Sound (walkPhrase frame mode first register previous tokens)
      (DeclaredBy frame.place tokens) := by
  have hnamed {t : Token} {s : Slot} (hident : t.kind = .ident) (hs : s.Declarable ∧
      (isRegisterName s.asmName = false ∨ s.asmName = frame.place.stem ++ t.value)) :
      s.Declarable ∧ s.NamedBy frame.place [t] :=
    ⟨hs.1, hs.2.imp_right fun hname => ⟨t, by simp, hident, hname⟩⟩
  have harrays (c : Catalog) (shapes : List ArrayShape) (hc : c.Sound)
      (_ : ∀ shape ∈ shapes, shape.Formed) :
      Catalog.Sound (c ++ shapes.map Shape.array) := by
    refine hc.append fun shape hshape => ?_
    simp at hshape
  refine keeps_walkPhrase_of frame harrays (fun _ s hs => absurd hs (by simp)) DeclaredBy.append
    (fun hsub h => h.mono hsub) ?_ ?_ mode first register previous tokens
  · intro t d register b declared hident hname hd s hs
    exact hnamed hident (hname ▸ Declarator.declarable_base hd hs)
  · intro c t d name line declared hc hident hname hd s hs
    refine hnamed hident (hname ▸ Declarator.declarable_struct (fun shape hshape => ?_) hd hs)
    exact hc shape (Catalog.mem_of_findStruct? hshape)

theorem keeps_defineStruct (place : Place) (name : String) (members : List Token) (line : Line) :
    Keeps Catalog.Sound (Layout.defineStruct place name members line) fun _ => True := by
  unfold Layout.defineStruct
  refine keeps_bind keeps_get fun c _ => ?_
  dsimp only
  split
  · exact keeps_throw _
  refine keeps_bind (keeps_walkPhrase _ _ _ _ _ _) fun slots hslots => ?_
  refine keeps_modify fun c hc => hc.append ?_
  intro shape hshape s hs
  simp only [List.mem_singleton, Shape.struct.injEq] at hshape
  subst hshape
  rcases List.mem_cons.mp hs with rfl | hs
  · constructor <;> simp
  · exact (hslots s hs).1

/-! ## Tables -/

/-- What is true of every slot in a table: it is no value, and the registers are known by their
names. -/
structure Slot.Fits (s : Slot) : Prop where
  constant : s.kind ≠ .constant
  void : s.kind ≠ .void
  offset : s.offset = none
  register : s.kind = .register ↔ isRegisterName s.asmName = true

/-- A table whose slots have names of their own and words that do not overlap. -/
structure Table.Sound (t : Table) : Prop where
  fits : ∀ s ∈ t.slots, s.Fits
  names : (t.slots.map Slot.asmName).Nodup
  placed : ∀ s ∈ t.slots, ∃ a, s.address = some a ∧ a + s.kind.width ≤ t.next
  distinct : ((t.slots.filter (·.kind ≠ .struct)).map Slot.address).Nodup

namespace Table

theorem sound_empty : Table.Sound {} := by
  constructor <;> simp

theorem findAsm?_eq_none {t : Table} {asmName : String} :
    (t.findAsm? asmName).isSome = false ↔ asmName ∉ t.slots.map Slot.asmName := by
  simp [findAsm?]

theorem Sound.push {t : Table} (h : t.Sound) {s : Slot} (hs : s.Fits)
    (hname : s.asmName ∉ t.slots.map Slot.asmName) : (t.push s).Sound where
  fits := by
    intro x hx
    rcases List.mem_append.mp hx with hx | hx
    · exact h.fits x hx
    · obtain rfl := List.mem_singleton.mp hx
      exact ⟨hs.constant, hs.void, hs.offset, hs.register⟩
  names := by
    simp only [Table.push, List.map_append, List.nodup_append]
    refine ⟨h.names, by simp, fun x hx y hy => ?_⟩
    obtain rfl : y = s.asmName := by simpa [Table.placed] using hy
    exact fun heq => hname (heq ▸ hx)
  placed := by
    intro x hx
    rcases List.mem_append.mp hx with hx | hx
    · obtain ⟨a, ha, hle⟩ := h.placed x hx
      exact ⟨a, ha, Nat.le_trans hle (Nat.le_add_right ..)⟩
    · obtain rfl := List.mem_singleton.mp hx
      exact ⟨t.next, rfl, Nat.le_refl _⟩
  distinct := by
    simp only [Table.push, List.filter_append, List.map_append, List.nodup_append]
    refine ⟨h.distinct, ?_, fun x hx y hy => ?_⟩
    · by_cases hk : s.kind = .struct <;> simp [Table.placed, hk]
    · obtain ⟨slot, hslot, rfl⟩ := List.mem_map.mp hx
      obtain ⟨hmem, hkind⟩ := List.mem_filter.mp hslot
      obtain ⟨a, ha, hle⟩ := h.placed slot hmem
      have hwidth : slot.kind.width = 1 := by
        revert hkind
        cases slot.kind <;> simp [Kind.width]
      obtain ⟨slot', hslot', rfl⟩ := List.mem_map.mp hy
      obtain rfl := List.mem_singleton.mp (List.mem_filter.mp hslot').1
      simp only [ha, Table.placed, ne_eq, Option.some.injEq]
      omega

theorem Sound.append {t : Table} (h : t.Sound) {slots : List Slot} (hs : ∀ s ∈ slots, s.Fits) :
    (t.append slots).1.Sound := by
  fun_induction Table.append t slots with
  | case1 => exact h
  | case2 => exact h
  | case3 t s rest hfree ih =>
    refine ih (h.push (hs s (by simp)) ?_) fun x hx => hs x (by simp [hx])
    exact findAsm?_eq_none.mp (by simpa using hfree)

theorem forall_append {t : Table} {slots : List Slot} {P : Slot → Prop}
    (h : ∀ s ∈ t.slots, P s) (hs : ∀ s ∈ slots, ∀ a, P (placed s a)) :
    ∀ s ∈ (t.append slots).1.slots, P s := by
  fun_induction Table.append t slots with
  | case1 => exact h
  | case2 => exact h
  | case3 t s rest hfree ih =>
    refine ih (fun x hx => ?_) fun x hx => hs x (by simp [hx])
    rcases List.mem_append.mp hx with hx | hx
    · exact h x hx
    · obtain rfl := List.mem_singleton.mp hx
      exact hs s (by simp) t.next

end Table

theorem Slot.Declarable.fits {s : Slot} (h : s.Declarable) (hname : isRegisterName s.asmName = false) :
    s.Fits :=
  ⟨h.constant, h.void, h.offset, by simp [h.register, hname]⟩

/-! ## Sessions -/

/-- A session in which only arrays and ready-made constants have a value from the start. -/
structure Session.Sound (s : Session) : Prop where
  table : s.table.Sound
  catalog : s.catalog.Sound
  filled : ∀ slot ∈ s.table.slots, slot.content ≠ none →
    slot.kind = .array ∨ slot.asmName ∈ s.autoConstants ∧ slot.kind = .long

namespace Session

variable {place : Place} {α : Type}

theorem fits_registerSlots {count : Nat} (hcount : count ≤ 10) :
    ∀ s ∈ registerSlots count, s.Fits := by
  intro s hs
  obtain ⟨i, hi, rfl⟩ := List.mem_map.mp hs
  have hi : i < 10 := Nat.lt_of_lt_of_le (List.mem_range.mp hi) hcount
  have hname : ∀ i < 10, isRegisterName s!"r{i}" = true := by decide
  exact ⟨nofun, nofun, rfl, by simpa using hname i hi⟩

theorem fits_constantSlots (count : Nat) : ∀ s ∈ constantSlots count, s.Fits := by
  intro s hs
  obtain ⟨i, -, rfl⟩ := List.mem_map.mp hs
  refine ⟨nofun, nofun, rfl, ?_⟩
  simp [isRegisterName, toString]

variable {options : Options} {s : Session}

theorem start_eq_ok (h : start options = .ok s) : options.fault? = none ∧ s = {
    options
    table := (Table.append {} (registerSlots options.registers ++ constantSlots options.constants)).1
    autoConstants := (constantSlots options.constants).map Slot.asmName } := by
  simp only [start, Options.validate, bind, Except.bind] at h
  split at h
  · cases h
  · next hvalid =>
    refine ⟨?_, (Except.ok.inj h).symm⟩
    split at hvalid
    · cases hvalid
    · assumption

theorem kind_of_start (h : start options = .ok s) :
    ∀ x ∈ s.table.slots, x.kind ≠ .struct ∧ x.kind ≠ .array := by
  obtain ⟨-, rfl⟩ := start_eq_ok h
  refine Table.forall_append (by simp) fun x hx _ => ?_
  rcases List.mem_append.mp hx with hx | hx <;> obtain ⟨i, -, rfl⟩ := List.mem_map.mp hx <;>
    simp [Table.placed]

theorem sound_start (h : start options = .ok s) : s.Sound := by
  obtain ⟨hvalid, rfl⟩ := start_eq_ok h
  have hregisters : options.registers ≤ 10 := by
    by_contra hbig
    simp only [Options.fault?] at hvalid
    grind
  refine ⟨Table.sound_empty.append fun slot hslot => ?_, by simp [Catalog.Sound], ?_⟩
  · rcases List.mem_append.mp hslot with hslot | hslot
    · exact fits_registerSlots hregisters slot hslot
    · exact fits_constantSlots _ slot hslot
  · refine Table.forall_append (by simp) fun slot hslot a hcontent => ?_
    rcases List.mem_append.mp hslot with hslot | hslot
    · obtain ⟨i, -, rfl⟩ := List.mem_map.mp hslot
      simp [Table.placed] at hcontent
    · refine .inr ⟨List.mem_map.mpr ⟨slot, hslot, rfl⟩, ?_⟩
      obtain ⟨i, -, rfl⟩ := List.mem_map.mp hslot
      rfl

theorem result_liftLayout (step : Layout α) (s : Session) :
    result (liftLayout step) s =
      ((result step s.catalog).1, { s with catalog := (result step s.catalog).2 }) := by
  have hstep : step.run.run s.catalog = result step s.catalog := rfl
  simp only [liftLayout, result_bind, result_get, hstep]
  rcases result step s.catalog with ⟨_ | a, c⟩ <;> rfl

/-- What a declaration does to a session, whether it is refused or not: it adds slots that its phrase gives,
or none, and shapes. -/
theorem declare_adds (place : Place) (tokens : List Token) (s : Session) : ∃ slots : List Slot,
    (∀ Q : Slot → Prop, (∀ a, (result (walkPhrase { place } .idle false false "" tokens) s.catalog).1 =
      .ok a → ∀ x ∈ a, Q x) → ∀ x ∈ slots, Q x) ∧
    (result (declare place tokens) s).2 = { s with
      table := (s.table.append slots).1
      catalog := (result (walkPhrase { place } .idle false false "" tokens) s.catalog).2 } := by
  unfold declare
  rw [result_bind, result_liftLayout, Layout.declare]
  rcases result (walkPhrase { place } .idle false false "" tokens) s.catalog with ⟨_ | slots, c⟩
  · exact ⟨[], by simp, rfl⟩
  · refine ⟨slots, fun Q h => h slots rfl, ?_⟩
    simp only [result_bind, result_get, result_set]
    split <;> rfl

theorem define_variables (place : Place) (tokens : List Token) (s : Session) :
    (result (define place (.variables tokens)) s).2 = (result (declare place tokens) s).2 := by
  change (result (declare place tokens >>= fun _ => pure ()) s).2 = _
  rw [result_bind]
  rcases result (declare place tokens) s with ⟨_ | slots, t⟩ <;> rfl

theorem keeps_liftLayout {step : Layout α} {Q : α → Prop} (h : Keeps Catalog.Sound step Q) :
    Keeps Sound (liftLayout step) Q := by
  unfold liftLayout
  refine keeps_bind keeps_get fun s hs => ?_
  obtain ⟨hcatalog, hQ⟩ := h s.catalog hs.catalog
  refine keeps_bind (keeps_set ⟨hs.table, hcatalog, hs.filled⟩) fun _ _ => ?_
  split
  · next a ha => exact keeps_pure (hQ a ha)
  · exact keeps_throw _

/-- The tokens of a phrase give no slot at this place the name of a register. -/
def Avoids (place : Place) (tokens : List Token) : Prop :=
  ∀ t ∈ tokens, t.kind = .ident → isRegisterName (place.stem ++ t.value) = false

theorem avoids_function (name : String) (tokens : List Token) :
    Avoids (.function name) tokens ∧ Avoids (.arguments name) tokens := by
  constructor <;> (intro t _ _; exact isRegisterName_eq_false (by simp [Place.function,
    Place.arguments]))

theorem keeps_declare {tokens : List Token} (h : Avoids place tokens) :
    Keeps Sound (declare place tokens) fun _ => True := by
  unfold declare
  refine keeps_bind (keeps_liftLayout (keeps_walkPhrase { place } .idle false false "" tokens))
    fun slots hslots => ?_
  refine keeps_bind keeps_get fun s hs => ?_
  dsimp only at hslots ⊢
  refine keeps_bind (keeps_set ⟨hs.table.append fun slot hslot => ?_, hs.catalog, ?_⟩) fun _ _ => ?_
  · obtain ⟨hdeclarable, hname⟩ := hslots slot hslot
    refine hdeclarable.fits ?_
    rcases hname with hname | ⟨t, ht, hk, hname⟩
    · exact hname
    · exact hname ▸ h t ht hk
  · refine Table.forall_append hs.filled fun slot hslot a hcontent => .inl ?_
    by_contra hk
    have hk : slot.kind ≠ .array := hk
    exact hcontent (by simpa [Table.placed, hk] using (hslots slot hslot).1.content)
  · split
    · exact keeps_pure trivial
    · exact keeps_throw _

theorem keeps_defineAll {body : List Stmt}
    (h : ∀ tokens, .variables tokens ∈ Stmt.blockDefinitions body → Avoids place tokens) :
    Keeps Sound (defineAll place body) fun _ => True := by
  refine keeps_forM fun definition hd => ?_
  rcases definition with tokens | ⟨name, members, line⟩
  · exact keeps_bind (keeps_declare (h tokens hd)) fun _ _ => keeps_pure trivial
  · rw [define]
    exact keeps_liftLayout (keeps_defineStruct place name members line)

theorem keeps_defineFunction (f : Function) : Keeps Sound (defineFunction f) fun _ => True := by
  unfold defineFunction
  refine keeps_bind keeps_get fun s _ => ?_
  dsimp only
  split
  · exact keeps_throw _
  have hdone (arguments : List Slot) :
      Keeps Sound (do
        modify fun s => { s with functions := s.functions ++ [signatureOf f arguments] }
        defineAll (.function f.name) f.body) fun _ => True :=
    keeps_bind (keeps_modify fun s hs => ⟨hs.table, hs.catalog, hs.filled⟩) fun _ _ =>
      keeps_defineAll fun tokens _ => (avoids_function f.name tokens).1
  split
  · exact keeps_bind (keeps_pure (Q := fun _ => True) trivial) fun arguments _ => hdone arguments
  · exact keeps_bind (keeps_declare (avoids_function f.name f.arguments).2)
      fun arguments _ => hdone arguments

end Session

/-- No global variable of a program has the name of a register. -/
def Program.AvoidsRegisters (program : Program) : Prop :=
  ∀ tokens, .variables tokens ∈ Stmt.blockDefinitions program.main →
    ∀ t ∈ tokens, t.kind = .ident → isRegisterName t.value = false

def Definition.avoidsRegisters : Definition → Bool
  | .variables tokens => tokens.all fun t => t.kind ≠ .ident || !isRegisterName t.value
  | .struct .. => true

theorem Definition.avoidsRegisters_variables {tokens : List Token} :
    avoidsRegisters (.variables tokens) = true ↔
      ∀ t ∈ tokens, t.kind = .ident → isRegisterName t.value = false := by
  simp [avoidsRegisters, Decidable.imp_iff_not_or]

instance (program : Program) : Decidable program.AvoidsRegisters :=
  decidable_of_iff (∀ d ∈ Stmt.blockDefinitions program.main, d.avoidsRegisters = true) <| by
    refine ⟨fun h tokens hmem => Definition.avoidsRegisters_variables.mp (h _ hmem), fun h d hd => ?_⟩
    rcases d with tokens | _
    · exact Definition.avoidsRegisters_variables.mpr (h tokens hd)
    · rfl

namespace Session

theorem keeps_build {program : Program} (h : program.AvoidsRegisters) :
    Keeps Sound (build program) fun _ => True := by
  refine keeps_bind (keeps_defineAll fun tokens htokens t ht hk => ?_) fun _ _ =>
    keeps_forM fun f _ => keeps_defineFunction f
  simpa [Place.global] using h tokens htokens t ht hk

end Session

end Flatword
