import Flatword.Proofs.Emission
import Flatword.Proofs.Fair

/-!
# Programs with more registers

With more registers a program is laid out as before, behind the added ones, and each of its units is emitted
as before. So what stands after the header is the same text, unless a name of the program is found in place of
an added register or the other way round.
-/

namespace Flatword

variable {program : Program} {x : Slot} {options : Options} {defined : List (Place × Definition)}

/-! ## Options -/

namespace Options

variable {location : Location} {name value : String}

/-- Options, and the same with `count` registers. Once a pragma has set the number, they are equal. -/
def Enlarged (count : Nat) (o o' : Options) : Prop :=
  o' = o ∨ o.registers ≤ count ∧ o' = { o with registers := count }

variable {count : Nat} {o o' u : Options}

theorem fault?_registers (h : o.fault? = none) (hcount : count ≠ 0 ∧ count ≤ 10) :
    ({ o with registers := count } : Options).fault? = none := by
  simp only [fault?] at h ⊢
  grind

theorem withPragma_registers (count : Nat) (h : o.withPragma name value = .ok u) :
    ({ o with registers := count } : Options).withPragma name value = .ok u ∨
      u.registers = o.registers ∧
        ({ o with registers := count } : Options).withPragma name value =
          .ok { u with registers := count } := by
  unfold withPragma at h ⊢
  split at h
  · cases hn : pragmaNumber "optimizationLevel" value 256 with
    | error cause => simp [hn, bind, Except.bind] at h
    | ok n =>
      simp only [hn, bind, Except.bind] at h ⊢
      obtain rfl := Except.ok.inj h
      exact .inr ⟨rfl, rfl⟩
  · exact .inl h
  · cases hn : pragmaNumber "maxConstVars" value wordLimit with
    | error cause => simp [hn, bind, Except.bind] at h
    | ok n =>
      simp only [hn, bind, Except.bind] at h ⊢
      obtain rfl := Except.ok.inj h
      exact .inr ⟨rfl, rfl⟩
  · split at h
    case h_6 => simp at h
    all_goals
      obtain rfl := Except.ok.inj h
      exact .inr ⟨rfl, by simp [*]⟩
  · simp at h

theorem result_applyPragma :
    result (applyPragma name value location) o = (.ok (), u) ↔
      o.withPragma name value = .ok u ∧ u.fault? = none := by
  simp only [applyPragma, result_bind, result_get]
  cases o.withPragma name value with
  | error cause => simp
  | ok u' =>
    simp only [result_bind, result_set, validate]
    cases hfault : u'.fault? with
    | some cause =>
      simp only [result_throw, Prod.mk.injEq, reduceCtorEq, false_and, false_iff]
      rintro ⟨heq, hnone⟩
      rw [← Except.ok.inj heq, hfault] at hnone
      simp at hnone
    | none =>
      simp only [result_pure, Prod.mk.injEq, true_and, Except.ok.injEq]
      exact ⟨fun heq => ⟨heq, heq ▸ hfault⟩, And.left⟩

theorem Enlarged.applyPragma (h : Enlarged count o o') (hcount : count ≠ 0 ∧ count ≤ 10)
    (hp : result (Options.applyPragma name value location) o = (.ok (), u)) :
    ∃ u', result (Options.applyPragma name value location) o' = (.ok (), u') ∧ Enlarged count u u' := by
  rcases h with rfl | ⟨hle, rfl⟩
  · exact ⟨u, hp, .inl rfl⟩
  obtain ⟨hset, hfault⟩ := result_applyPragma.mp hp
  rcases withPragma_registers count hset with hsame | ⟨hregisters, hsame⟩
  · exact ⟨u, result_applyPragma.mpr ⟨hsame, hfault⟩, .inl rfl⟩
  · refine ⟨_, result_applyPragma.mpr ⟨hsame, fault?_registers hfault hcount⟩, .inr ⟨?_, rfl⟩⟩
    rwa [hregisters]

theorem Enlarged.applyPragmas (h : Enlarged count o o') (hcount : count ≠ 0 ∧ count ≤ 10)
    {pragmas : List Pragma} (hp : result (Options.applyPragmas pragmas) o = (.ok (), u)) :
    ∃ u', result (Options.applyPragmas pragmas) o' = (.ok (), u') ∧ Enlarged count u u' := by
  unfold Options.applyPragmas at hp ⊢
  induction pragmas generalizing o o' with
  | nil =>
    obtain ⟨-, rfl⟩ := Prod.mk.inj hp
    exact ⟨o', rfl, h⟩
  | cons p rest ih =>
    rw [List.forM_eq_forM, List.forM_cons, result_bind_eq_ok] at hp
    obtain ⟨_, o₁, hfirst, hrest⟩ := hp
    obtain ⟨o₁', hfirst', h₁⟩ := h.applyPragma hcount hfirst
    obtain ⟨u', hrest', hu⟩ := ih h₁ hrest
    refine ⟨u', ?_, hu⟩
    rw [List.forM_eq_forM, List.forM_cons, result_bind_eq_ok]
    exact ⟨_, o₁', hfirst', hrest'⟩

end Options

/-! ## Layout -/

namespace Widening

variable {slots : List Slot} {w : Widening}

theorem splice_append {n : Nat} (h : n ≤ slots.length) (later : List Slot) :
    w.splice n (slots ++ later) = w.splice n slots ++ later.map w.slot := by
  induction slots generalizing n with
  | nil =>
    obtain rfl : n = 0 := by simpa using h
    rw [List.nil_append, splice_zero, splice_zero, List.map_nil, List.append_nil]
  | cons x rest ih =>
    cases n with
    | zero => rw [splice_zero, splice_zero, List.map_append, List.append_assoc]
    | succ n => rw [List.cons_append, splice, ih (by simpa using h), splice, List.cons_append]

theorem slot_placed (hoffset : x.offset = none) {a : Nat} (ha : w.count ≤ a) :
    w.slot (Table.placed x a) = Table.placed x (a + w.more) := by
  by_cases hk : x.kind = .array <;> simp [slot, Table.placed, hoffset, hk, place_of_le ha]

/-- A table in which the slots and the addresses of the registers have been given out. -/
def Fronts (w : Widening) (t : Table) : Prop :=
  w.count ≤ t.slots.length ∧ w.count ≤ t.next

theorem push_table {t : Table} (ht : w.Fronts t) (hoffset : x.offset = none) :
    (w.table t).push x = w.table (t.push x) := by
  simp only [Table.push, table, splice_append ht.1, List.map_cons, List.map_nil,
    slot_placed hoffset ht.2, Nat.add_right_comm]

theorem Fronts.push {t : Table} (ht : w.Fronts t) (x : Slot) : w.Fronts (t.push x) := by
  obtain ⟨hlength, hnext⟩ := ht
  constructor
  · rw [Table.push, List.length_append]
    omega
  · exact Nat.le_trans hnext (Nat.le_add_right ..)

theorem append_table {t : Table} (ht : w.Fronts t)
    (hslots : ∀ x ∈ slots, x.offset = none ∧ x.asmName ∉ w.names) :
    (w.table t).append slots = (w.table (t.append slots).1, (t.append slots).2) := by
  fun_induction Table.append t slots with
  | case1 t => rfl
  | case2 t x rest htaken =>
    have htaken' : ((w.table t).findAsm? x.asmName).isSome = true := by
      rwa [findAsm?_table (hslots x (by simp)).2, Option.isSome_map]
    rw [Table.append, if_pos htaken']
  | case3 t x rest hfree ih =>
    obtain ⟨hoffset, hname⟩ := hslots x (by simp)
    have hfree' : ¬ ((w.table t).findAsm? x.asmName).isSome = true := by
      rwa [findAsm?_table hname, Option.isSome_map]
    rw [Table.append, if_neg hfree', push_table ht hoffset]
    exact ih (ht.push x) fun y hy => hslots y (by simp [hy])

theorem isRegisterName_of_mem_names (hlimit : w.count + w.more ≤ 10) {name : String}
    (h : name ∈ w.names) : isRegisterName name = true := by
  obtain ⟨x, hx, rfl⟩ := List.mem_map.mp h
  obtain ⟨i, -, hi, rfl⟩ := exists_of_mem_added hx
  exact isRegisterName_iff.mpr ⟨i, by omega, rfl⟩

end Widening

/-! ### Sessions -/

namespace Session

/-- A session with its registers in front and no other slot of such a name. -/
abbrev Plain (count : Nat) (s : Session) : Prop :=
  s.Fronted count fun _ => False

theorem wordCount_configured (count : Nat) :
    wordCount ((configured count).map Slot.kind) = count := by
  have hwords (slots : List Slot) (h : ∀ x ∈ slots, x.kind = .register) :
      wordCount (slots.map Slot.kind) = slots.length := by
    induction slots with
    | nil => rfl
    | cons x rest ih =>
      rw [List.map_cons, wordCount_cons, h x (by simp), ih fun y hy => h y (by simp [hy]),
        List.length_cons, Nat.add_comm]
      rfl
  rw [hwords _ fun x hx => ?_, length_configured]
  obtain ⟨i, -, a, rfl⟩ := exists_of_mem_configured hx
  rfl

theorem Plain.fronts {w : Widening} {s : Session} (hs : s.Plain w.count) : w.Fronts s.table := by
  obtain ⟨later, heq, -⟩ := hs.table.split
  constructor
  · rw [heq, List.length_append, length_configured]
    exact Nat.le_add_right ..
  · rw [hs.table.layout.next, heq, List.map_append, wordCount_append, wordCount_configured]
    exact Nat.le_add_right ..

theorem Plain.le_address {count : Nat} {s : Session} (hs : s.Plain count)
    (hx : x ∈ s.table.slots) (hkind : x.kind ≠ .register) {a : Nat} (ha : x.address = some a) :
    count ≤ a := by
  obtain ⟨later, hslots, -⟩ := hs.table.split
  rcases List.mem_append.mp (hslots ▸ hx) with hx | hx
  · obtain ⟨i, -, b, rfl⟩ := exists_of_mem_configured hx
    exact absurd rfl hkind
  · obtain ⟨before, after, rfl⟩ := List.append_of_mem hx
    have haddress := hs.table.layout.address_eq (hslots.trans (List.append_assoc ..).symm)
    rw [ha, List.map_append, wordCount_append, wordCount_configured] at haddress
    have := Option.some.inj haddress
    omega

end Session

theorem Table.Sound.lt_next {t : Table} (h : t.Sound) (hx : x ∈ t.slots) (hkind : x.kind ≠ .struct)
    {a : Nat} (ha : x.address = some a) : a < t.next := by
  obtain ⟨b, hb, hle⟩ := h.placed x hx
  obtain rfl : a = b := Option.some.inj (ha.symm.trans hb)
  have hwidth : x.kind.width = 1 := by
    revert hkind
    cases x.kind <;> simp [Kind.width]
  omega

namespace Widening

open Session

variable {w : Widening} {α β : Type}

/-- A step of the layout that does the same after more registers. -/
def Shifted (w : Widening) (m : SessionM α) : Prop :=
  ∀ s : Session, s.Plain w.count → (result m s).2.Plain w.count ∧
    result m (w.session s) = ((result m s).1, w.session (result m s).2)

theorem shifted_pure (a : α) : w.Shifted (pure a) :=
  fun _ hs => ⟨hs, rfl⟩

theorem Shifted.bind {m : SessionM α} {k : α → SessionM β} (hm : w.Shifted m)
    (hk : ∀ a, w.Shifted (k a)) : w.Shifted (m >>= k) := by
  intro s hs
  obtain ⟨hplain, hresult⟩ := hm s hs
  rw [result_bind, result_bind, hresult]
  rcases h : result m s with ⟨failure | a, t⟩ <;> rw [h] at hplain
  · exact ⟨hplain, rfl⟩
  · exact hk a t hplain

theorem shifted_forM {γ : Type} {f : γ → SessionM PUnit} {xs : List γ}
    (h : ∀ x ∈ xs, w.Shifted (f x)) : w.Shifted (xs.forM f) := by
  induction xs with
  | nil => exact shifted_pure _
  | cons x xs ih =>
    rw [List.forM_eq_forM, List.forM_cons]
    exact (h x (by simp)).bind fun _ => ih fun y hy => h y (by simp [hy])

theorem shifted_declare (hlimit : w.count + w.more ≤ 10) {place : Place} {tokens : List Token}
    (h : Avoids place tokens) : w.Shifted (declare place tokens) := by
  intro s hs
  have havoids {x : Slot} (hx : x.NamedBy place tokens) : isRegisterName x.asmName = false := by
    rcases hx with hx | ⟨t, ht, hkind, hname⟩
    · exact hx
    · exact hname ▸ h t ht hkind
  refine ⟨hs.declare tokens fun x hx hname => by simp [havoids hx] at hname, ?_⟩
  have hslots := (keeps_walkPhrase { place } .idle false false "" tokens s.catalog hs.catalog).2
  unfold declare
  rw [result_bind, result_bind, result_liftLayout, result_liftLayout,
    show (w.session s).catalog = s.catalog from rfl]
  rcases hlayout : result (Layout.declare place tokens) s.catalog with ⟨failure | slots, c⟩
  · rfl
  rw [show result (walkPhrase { place } .idle false false "" tokens) s.catalog = _ from hlayout]
    at hslots
  have happend : (w.table s.table).append slots =
      (w.table (s.table.append slots).1, (s.table.append slots).2) := by
    refine append_table hs.fronts fun x hx => ?_
    obtain ⟨hdeclarable, hnamed⟩ := hslots slots rfl x hx
    refine ⟨hdeclarable.offset, fun hname => ?_⟩
    have hregister := isRegisterName_of_mem_names hlimit hname
    simp [havoids hnamed] at hregister
  have htable : (w.session s).table = w.table s.table := rfl
  dsimp only
  simp only [result_bind, result_get, result_set, htable, happend]
  cases (s.table.append slots).2 <;> rfl

theorem shifted_liftLayout (step : Layout α) (hstep : Keeps Catalog.Sound step fun _ => True) :
    w.Shifted (liftLayout step) := by
  intro s hs
  rw [result_liftLayout, result_liftLayout]
  exact ⟨⟨hs.table, (hstep s.catalog hs.catalog).1, hs.bound⟩, rfl⟩

theorem shifted_define (hlimit : w.count + w.more ≤ 10) {place : Place} {definition : Definition}
    (h : ∀ tokens, definition = .variables tokens → Avoids place tokens) :
    w.Shifted (define place definition) := by
  rcases definition with tokens | ⟨name, members, line⟩
  · change w.Shifted (declare place tokens >>= fun _ => pure ())
    exact (shifted_declare hlimit (h tokens rfl)).bind fun _ => shifted_pure ()
  · rw [define]
    exact shifted_liftLayout _ (keeps_defineStruct place name members line)

theorem shifted_defineFunction (hlimit : w.count + w.more ≤ 10) (f : Function) :
    w.Shifted (defineFunction f) := by
  have hrest (arguments : List Slot) : w.Shifted (do
      modify fun s => { s with functions := s.functions ++ [signatureOf f arguments] }
      defineAll (.function f.name) f.body) := by
    refine Shifted.bind (fun s hs => ⟨⟨hs.table, hs.catalog, hs.bound⟩, rfl⟩) fun _ => ?_
    refine shifted_forM fun definition _ => shifted_define hlimit fun tokens _ => ?_
    exact (avoids_function f.name tokens).1
  have hbody : w.Shifted (do
      let arguments ← if f.takesNothing then pure [] else declare (.arguments f.name) f.arguments
      modify fun s => { s with functions := s.functions ++ [signatureOf f arguments] }
      defineAll (.function f.name) f.body) := by
    by_cases hnothing : f.takesNothing = true
    · rw [if_pos hnothing]
      exact (shifted_pure []).bind hrest
    · rw [if_neg hnothing]
      exact (shifted_declare hlimit (avoids_function f.name f.arguments).2).bind hrest
  -- whether the name is taken does not depend on the table
  intro s hs
  unfold defineFunction
  rw [result_bind, result_bind, result_get, result_get]
  dsimp only
  rw [show (w.session s).signature? f.name = s.signature? f.name from rfl]
  split
  · exact ⟨hs, rfl⟩
  · exact hbody s hs

theorem shifted_build (hlimit : w.count + w.more ≤ 10) {program : Program}
    (h : program.AvoidsRegisters) : w.Shifted (build program) := by
  refine Shifted.bind (shifted_forM fun definition hd => shifted_define hlimit ?_) fun _ =>
    shifted_forM fun f _ => shifted_defineFunction hlimit f
  rintro tokens rfl t ht hkind
  simpa [Place.global] using h tokens hd t ht hkind

theorem map_slot_placedFrom {first : Nat} (hfirst : w.count ≤ first) {slots : List Slot}
    (hslots : ∀ x ∈ slots, x.offset = none) :
    (Table.placedFrom first slots).map w.slot = Table.placedFrom (first + w.more) slots := by
  induction slots generalizing first with
  | nil => rfl
  | cons x rest ih =>
    rw [Table.placedFrom, List.map_cons, slot_placed (hslots x (by simp)) hfirst,
      ih (by omega) fun y hy => hslots y (by simp [hy]), Table.placedFrom, Nat.add_right_comm]

theorem wordCount_registerSlots (count : Nat) :
    wordCount ((registerSlots count).map Slot.kind) = count := by
  induction count with
  | zero => rfl
  | succ count ih =>
    simp only [registerSlots, List.range_succ, List.map_append, wordCount_append] at ih ⊢
    rw [ih]
    rfl

theorem configured_eq_map_register (count : Nat) :
    configured count = (List.range count).map register := by
  induction count with
  | zero => rfl
  | succ count ih =>
    have hsplit : registerSlots (count + 1) = registerSlots count ++
        [{ name := s!"r{count}", asmName := s!"r{count}", kind := .register, type := .long,
           isSet := true, isDeclared := true }] := by
      simp [registerSlots, List.range_succ]
    rw [configured, hsplit, Table.placedFrom_append, wordCount_registerSlots, List.range_succ,
      List.map_append, ← ih, Nat.zero_add]
    rfl

theorem kept_of_mem_configured (hlimit : w.count + w.more ≤ 10)
    (hx : x ∈ configured w.count) : x.kind = .register ∧ x.asmName ∉ w.names ∧ x.name ∉ w.names := by
  obtain ⟨i, hi, a, rfl⟩ := exists_of_mem_configured hx
  have hkept : s!"r{i}" ∉ w.names := by
    intro hmem
    obtain ⟨y, hy, hname⟩ := List.mem_map.mp hmem
    obtain ⟨j, hj, hj', rfl⟩ := exists_of_mem_added hy
    have hdistinct : ∀ i < 10, ∀ j < 10, s!"r{j}" = s!"r{i}" → j = i := by decide
    have := hdistinct i (by omega) j (by omega) hname
    omega
  exact ⟨rfl, hkept, hkept⟩

theorem splice_configured : w.splice w.count (configured w.count) = configured (w.count + w.more) := by
  have hkept {n : Nat} {slots : List Slot} (hn : slots.length = n)
      (hslots : ∀ x ∈ slots, w.slot x = x) : w.splice n slots = slots ++ w.added := by
    induction slots generalizing n with
    | nil =>
      obtain rfl : n = 0 := by simpa using hn.symm
      rw [splice_zero, List.map_nil, List.append_nil, List.nil_append]
    | cons x rest ih =>
      obtain ⟨n, rfl⟩ : ∃ m, n = m + 1 := ⟨rest.length, by simpa using hn.symm⟩
      rw [splice, ih (by simpa using hn) fun y hy => hslots y (by simp [hy]), hslots x (by simp),
        List.cons_append]
  rw [hkept (length_configured w.count) fun x hx => ?_]
  · rw [configured_eq_map_register, configured_eq_map_register, List.range_add, List.map_append,
      List.map_map]
    rfl
  · rw [configured_eq_map_register] at hx
    obtain ⟨i, hi, rfl⟩ := List.mem_map.mp hx
    simp [slot, register, place, List.mem_range.mp hi]

theorem append_startSlots {registers constants : Nat} (hregisters : registers ≤ 10)
    (hconstants : constants ≤ 10) :
    (Table.append {} (registerSlots registers ++ constantSlots constants)).1 =
      { slots := configured registers ++ Table.placedFrom registers (constantSlots constants),
        next := registers + wordCount ((constantSlots constants).map Slot.kind) } := by
  have hnone := Table.append_empty_eq_none (nodup_startNames hregisters hconstants)
  rw [Table.append_eq_of_none hnone, List.nil_append, Table.placedFrom_append, List.map_append,
    wordCount_append, wordCount_registerSlots, Nat.zero_add, Nat.zero_add]
  rfl

theorem start_session (w : Widening) {s : Session}
    (hcount : options.registers = w.count)
    (h : Session.start options = .ok s)
    (hvalid : ({ options with registers := w.count + w.more } : Options).fault? = none) :
    Session.start { options with registers := w.count + w.more } = .ok (w.session s) := by
  simp only [Session.start, Options.validate, hvalid, bind, Except.bind] at h ⊢
  split at h
  · simp at h
  obtain rfl := Except.ok.inj h
  have hsizes : w.count + w.more ≤ 10 ∧ options.constants ≤ 10 := by
    simp only [Options.fault?] at hvalid
    grind
  have hconstants : ∀ x ∈ constantSlots options.constants, x.offset = none :=
    fun x hx => (fits_constantSlots _ x hx).offset
  have htable : (Table.append {} (registerSlots (w.count + w.more) ++
      constantSlots options.constants)).1 =
      w.table (Table.append {} (registerSlots w.count ++ constantSlots options.constants)).1 := by
    rw [append_startSlots hsizes.1 hsizes.2,
      append_startSlots (Nat.le_of_add_right_le hsizes.1) hsizes.2]
    simp only [table, splice_append (Nat.le_of_eq (length_configured w.count).symm),
      splice_configured, map_slot_placedFrom (Nat.le_refl w.count) hconstants, Nat.add_right_comm]
  simp only [hcount, htable, session]
  rfl

end Widening

/-! ## Names -/

/-- A slot of a declaration: it is in the scope of its place, and its name is that of a declarator or
put together from one. -/
structure Slot.SpelledBy (x : Slot) (place : Place) (tokens : List Token) : Prop where
  scope : x.scope = place.scope
  asmName : x.asmName = place.stem ++ x.name
  name : '_' ∈ x.name.toList ∨ ∃ t ∈ tokens, t.kind = .ident ∧ t.value = x.name

theorem Slot.SpelledBy.mono {place : Place} {tokens tokens' : List Token} (h : x.SpelledBy place tokens)
    (hsub : tokens ⊆ tokens') : x.SpelledBy place tokens' :=
  ⟨h.scope, h.asmName, h.name.imp_right fun ⟨t, ht, hname⟩ => ⟨t, hsub ht, hname⟩⟩

namespace Declarator

variable {d : Declarator} {frame : PhraseFrame} {declared : Declared} {t : Token}

theorem spelled_named (ht : t.kind = .ident) (hname : d.name = t.value)
    (hscope : x.scope = frame.place.scope) (hxname : x.name = d.name)
    (hasm : x.asmName = frame.place.stem ++ x.name) : x.SpelledBy frame.place [t] :=
  ⟨hscope, hasm, .inr ⟨t, by simp, ht, by rw [hxname, hname]⟩⟩

theorem spelled_base (ht : t.kind = .ident) (hname : d.name = t.value) {register : Bool} {b : BaseType}
    (h : d.base frame register b = .ok declared) (hx : x ∈ declared.slots) :
    x.SpelledBy frame.place [t] := by
  obtain ⟨_, _, -, rfl | ⟨_, _, -, -, rfl, rfl⟩⟩ := base_eq_ok h
  · obtain rfl := List.mem_singleton.mp hx
    exact spelled_named ht hname rfl rfl rfl
  · rcases List.mem_cons.mp hx with rfl | hx
    · exact spelled_named ht hname rfl rfl rfl
    · obtain ⟨i, -, rfl⟩ := List.mem_map.mp hx
      exact ⟨rfl, by simp [named, toString, String.append_assoc], .inl (by simp [toString])⟩

theorem spelled_instantiate {place : Place} {S : StructShape} {name : String}
    (h : x ∈ instantiate place S name) : x.scope = place.scope ∧ x.asmName = place.stem ++ x.name ∧
      (x.name = name ∨ ∃ rest, x.name = name ++ "_" ++ rest) := by
  obtain ⟨member, -, rfl⟩ := List.mem_map.mp h
  refine ⟨rfl, rfl, ?_⟩
  dsimp only
  split
  · exact .inl rfl
  · exact .inr ⟨member.name, rfl⟩

theorem spelled_struct (ht : t.kind = .ident) (hname : d.name = t.value) {structName : String}
    {line : Line} {shape? : Option StructShape}
    (h : d.struct frame structName line shape? = .ok declared) (hx : x ∈ declared.slots) :
    x.SpelledBy frame.place [t] := by
  obtain ⟨_, -, rfl⟩ | ⟨_, -, rfl⟩ | ⟨_, -, _, _, _, -, -, -, -, rfl, rfl⟩ := struct_eq_ok h
  · obtain rfl := List.mem_singleton.mp hx
    exact spelled_named ht hname rfl rfl rfl
  · obtain ⟨hscope, hasm, hxname | ⟨rest, hxname⟩⟩ := spelled_instantiate hx
    · exact spelled_named ht hname hscope hxname hasm
    · exact ⟨hscope, hasm, .inl (by simp [hxname])⟩
  · rcases List.mem_cons.mp hx with rfl | hx
    · exact spelled_named ht hname rfl rfl rfl
    · obtain ⟨i, -, hx⟩ := List.mem_flatMap.mp hx
      obtain ⟨hscope, hasm, hxname | ⟨rest, hxname⟩⟩ := spelled_instantiate hx <;>
        exact ⟨hscope, hasm, .inl (by simp [hxname, toString])⟩

end Declarator

theorem keeps_spelled_walkPhrase (frame : PhraseFrame) (tokens : List Token) :
    Keeps (fun _ => True) (walkPhrase frame .idle false false "" tokens)
      fun slots => ∀ x ∈ slots, x.SpelledBy frame.place tokens := by
  refine keeps_walkPhrase_of (Q := fun tokens slots => ∀ x ∈ slots, x.SpelledBy frame.place tokens)
    frame (fun _ _ _ _ => trivial) (fun _ x hx => absurd hx (by simp)) (fun hfirst hlater x hx => ?_)
    (fun hsub h x hx => (h x hx).mono hsub) ?_ ?_ .idle false false "" tokens
  · rcases List.mem_append.mp hx with hx | hx
    · exact hfirst x hx
    · exact hlater x hx
  · intro t d register b declared hident hname hd x hx
    exact Declarator.spelled_base hident hname hd hx
  · intro c t d name line declared _ hident hname hd x hx
    exact Declarator.spelled_struct hident hname hd hx

/-- A slot of a session: a register, a ready-made constant, or one of a declaration. -/
def Slot.TracedTo (defined : List (Place × Definition)) (x : Slot) : Prop :=
  x.kind = .register ∨ x.kind = .long ∧ isRegisterName x.name = false ∨
    ∃ place tokens, place.IsSite ∧ (place, .variables tokens) ∈ defined ∧ x.SpelledBy place tokens

theorem Slot.tracedTo_bare : x.bare.TracedTo defined ↔ x.TracedTo defined := by
  have hspelled (place : Place) (tokens : List Token) :
      x.bare.SpelledBy place tokens ↔ x.SpelledBy place tokens :=
    ⟨fun h => ⟨h.scope, h.asmName, h.name⟩, fun h => ⟨h.scope, h.asmName, h.name⟩⟩
  simp only [TracedTo, hspelled]
  rfl

namespace Session

variable {s : Session}

theorem tracedTo_start (h : start options = .ok s) : ∀ x ∈ s.table.slots, x.TracedTo [] := by
  obtain ⟨-, rfl⟩ := start_eq_ok h
  refine Table.forall_append (by simp) fun x hx a => ?_
  rcases List.mem_append.mp hx with hx | hx <;> obtain ⟨i, -, rfl⟩ := List.mem_map.mp hx
  · exact .inl rfl
  · exact .inr (.inl ⟨rfl, by simp [isRegisterName, Table.placed, toString]⟩)

theorem Reached.tracedTo (h : Reached options defined s) :
    ∀ x ∈ s.table.slots, x.TracedTo defined := by
  induction h with
  | start h => exact tracedTo_start h
  | sign _ functions ih => exact ih
  | @emit defined s t _ hleads ih =>
    intro x hx
    have hmem : x.bare ∈ s.table.bare.slots := hleads.bare ▸ List.mem_map_of_mem hx
    obtain ⟨y, hy, hbare⟩ := List.mem_map.mp hmem
    rw [← Slot.tracedTo_bare, ← hbare, Slot.tracedTo_bare]
    exact ih y hy
  | @define defined s _ place hplace definition ih =>
    have hs : ∀ x ∈ s.table.slots, x.TracedTo (defined ++ [(place, definition)]) := by
      intro x hx
      rcases ih x hx with hx | hx | ⟨place', tokens, hsite, hmem, hx⟩
      · exact .inl hx
      · exact .inr (.inl hx)
      · exact .inr (.inr ⟨place', tokens, hsite, List.mem_append_left _ hmem, hx⟩)
    rcases definition with tokens | ⟨name, members, line⟩
    · have hspelled := (keeps_spelled_walkPhrase { place } tokens s.catalog trivial).2
      obtain ⟨slots, hslots, heq⟩ := declare_adds place tokens s
      rw [define_variables, heq]
      refine Table.forall_append hs fun x hx a => .inr (.inr ⟨place, tokens, hplace, by simp, ?_⟩)
      obtain ⟨hscope, hasm, hname⟩ := hslots _ hspelled x hx
      exact ⟨hscope, hasm, hname⟩
    · rw [Session.define, result_liftLayout]
      exact hs

end Session

/-- No variable in the scope of the globals has the name of a register or of a constant. -/
def SparesNames (defined : List (Place × Definition)) : Prop :=
  ∀ place tokens, (place, .variables tokens) ∈ defined → place.scope = "" →
    ∀ t ∈ tokens, t.kind = .ident →
      isRegisterName t.value = false ∧ ∀ v : Word, t.value ≠ s!"n{v}" ∧ t.value ≠ s!"f{v}"

namespace Slot.SpelledBy

variable {place : Place} {tokens : List Token}

theorem isRegisterName_name (h : x.SpelledBy place tokens) (hspares : SparesNames defined)
    (hmem : (place, .variables tokens) ∈ defined) (hscope : x.scope = "") :
    isRegisterName x.name = false := by
  rcases h.name with hjoined | ⟨t, ht, hkind, hname⟩
  · exact isRegisterName_eq_false hjoined
  · exact hname ▸ (hspares place tokens hmem (h.scope ▸ hscope) t ht hkind).1

theorem ne_numbered (h : x.SpelledBy place tokens) (hplace : place.IsSite)
    (hspares : SparesNames defined) (hmem : (place, .variables tokens) ∈ defined) (v : Word) :
    x.asmName ≠ s!"n{v}" ∧ x.asmName ≠ s!"f{v}" := by
  rcases hplace with rfl | ⟨name, hplace⟩
  · have hasm : x.asmName = x.name := by simpa [Place.global] using h.asmName
    rw [hasm]
    rcases h.name with hjoined | ⟨t, ht, hkind, hname⟩
    · exact ne_numbered_of_underscore hjoined v
    · exact hname ▸ (hspares _ tokens hmem rfl t ht hkind).2 v
  · refine ne_numbered_of_underscore ?_ v
    rw [h.asmName]
    rcases hplace with rfl | rfl <;> simp [Place.function, Place.arguments]

end Slot.SpelledBy

/-! ## Sessions that can move up -/

def Shape.cells : Shape → Nat
  | .array shape => ArrayShape.cellCount shape.dimensions * shape.template.size
  | .struct _ => 0

/-- The words of a session have addresses in a memory even after ten more registers, and so have the
cells of any of its arrays after them. -/
structure Session.Roomy (s : Session) : Prop where
  words : s.table.next + 10 < wordLimit
  arrays : ∀ shape ∈ s.catalog, s.table.next + 10 + shape.cells < wordLimit

namespace Session.Reached

variable {s : Session}

theorem plain (h : Reached options defined s) (hspares : SparesNames defined) :
    s.Plain options.registers := by
  obtain ⟨htable, hcatalog, hbound⟩ := h.fronted
  refine ⟨Table.Opens.mono htable fun x hx => ⟨hx.1, fun hname => ?_⟩, hcatalog, hbound⟩
  obtain ⟨tokens, hmem, t, ht, hkind, hvalue⟩ := hx.2 hname
  have hspared := (hspares .global tokens hmem rfl t ht hkind).1
  simp [hvalue, hname] at hspared

theorem covers {w : Widening} (h : Reached options defined s) (hsound : s.Sound) (hlaid : s.table.Laid)
    (hspares : SparesNames defined) (hroom : s.Roomy) (hcount : w.count = options.registers)
    (hlimit : w.count + w.more ≤ 10) (hwords : w.words = s.table.next) :
    w.Covers s.table.slots s.catalog := by
  have hplain : s.Plain w.count := hcount ▸ h.plain hspares
  obtain ⟨later, hslots, hlater⟩ := hplain.table.split
  have hregister {name : String} : name ∈ w.names → isRegisterName name = true :=
    Widening.isRegisterName_of_mem_names hlimit
  have hbehind {x : Slot} (hx : x ∈ later) : x.kind ≠ .register ∧ isRegisterName x.asmName = false :=
    ⟨(hlater x hx).1, by simpa using (hlater x hx).2⟩
  have hmem {x : Slot} (hx : x ∈ s.table.slots) : x ∈ configured w.count ∨ x ∈ later :=
    List.mem_append.mp (hslots ▸ hx)
  refine ⟨hlimit, fun x hx => ?_, fun x hx hscope => ?_, fun x hx => ?_, fun x hx hname => ?_,
    hlaid.layout.names, fun x hx => (hsound.table.fits x hx).constant, fun x hx => ?_,
    fun x hx hkind a ha => ?_, fun x hx hkind v => ?_, ?_, fun shape hshape => ⟨?_, ?_⟩⟩
  · rcases hmem hx with hx | hx
    · exact (Widening.kept_of_mem_configured hlimit hx).2.1
    · exact fun hname => by simpa [hbehind hx] using hregister hname
  · rcases hmem hx with hfirst | hbehindx
    · exact (Widening.kept_of_mem_configured hlimit hfirst).2.2
    · intro hname
      have hname := hregister hname
      rcases h.tracedTo x hx with hkind | ⟨-, hspared⟩ | ⟨place, tokens, -, hdefined, hspelled⟩
      · exact absurd hkind (hbehind hbehindx).1
      · simp [hspared] at hname
      · simp [hspelled.isRegisterName_name hspares hdefined hscope] at hname
  · rw [hslots, List.drop_left' (length_configured w.count)] at hx
    exact (hbehind hx).2
  · rcases hmem hx with hx | hx
    · simp [(Widening.kept_of_mem_configured hlimit hx).1, Kind.isRegular]
    · simp [hbehind hx] at hname
  · refine ⟨fun hkind => absurd hkind (hsound.table.fits x hx).constant, fun hkind => ?_⟩
    obtain ⟨a, ha, hcontent⟩ := hlaid.contents x hx hkind
    refine ⟨by simp [(hsound.table.fits x hx).offset], a, ha, ?_, ?_, hcontent⟩
    · exact hplain.le_address hx (by simp [hkind]) ha
    · exact hwords ▸ hsound.table.lt_next hx (by simp [hkind]) ha
  · exact hwords ▸ hsound.table.lt_next hx hkind ha
  · rcases h.tracedTo x hx with hkind' | ⟨hkind', -⟩ | ⟨place, tokens, hplace, hdefined, hspelled⟩
    · simp [hkind'] at hkind
    · simp [hkind'] at hkind
    · exact hspelled.ne_numbered hplace hspares hdefined v
  · rw [hwords]
    exact Nat.lt_of_le_of_lt (by omega) hroom.words
  · exact (h.ready.formed shape hshape).strides
  · rw [hwords]
    exact Nat.lt_of_le_of_lt (Nat.add_le_add_right (by omega) _) (hroom.arrays _ hshape)

end Session.Reached

/-! ## Units -/

namespace Widening

variable {lines : List String} {w : Widening} {s t : Session}

theorem emitUnit_session {function : Option Function} {body : List Stmt} {code : Code}
    (hbody : Stmt.blockHidesAddresses body = true) (hs : w.Covers s.table.slots s.catalog)
    (h : result (Session.emitUnit function lines body) s = (.ok code, t)) :
    w.Covers t.table.slots t.catalog ∧
      result (Session.emitUnit function lines body) (w.session s) = (.ok code, w.session t) := by
  unfold Session.emitUnit at h ⊢
  split at h
  · simp at h
  rw [Session.result_runEmit] at h ⊢
  obtain ⟨hcode, rfl⟩ := Prod.mk.inj h
  obtain ⟨_, _, hgives, rfl, hcovers, rfl⟩ :=
    follows_emitBlock w none body hbody ⟨hs, rfl⟩ (Prod.ext hcode rfl)
  rw [show outcome (Stmt.emitBlock none body) _ { session := w.session s } = _ from hgives]
  exact ⟨hcovers, rfl⟩

theorem compileFunctions_session {functions : List Function} {codes : List (String × Code)}
    (hbody : ∀ f ∈ functions, Stmt.blockHidesAddresses f.body = true)
    (hs : w.Covers s.table.slots s.catalog)
    (h : result (functions.mapM (Session.compileFunction lines)) s = (.ok codes, t)) :
    result (functions.mapM (Session.compileFunction lines)) (w.session s) =
      (.ok codes, w.session t) := by
  induction functions generalizing s codes with
  | nil =>
    obtain ⟨hcodes, rfl⟩ := Prod.mk.inj h
    obtain rfl := Except.ok.inj hcodes
    rfl
  | cons f rest ih =>
    simp only [List.mapM_cons, Session.compileFunction, result_bind_eq_ok, result_pure,
      Prod.mk.injEq, Except.ok.injEq] at h ⊢
    obtain ⟨_, _, ⟨code, u, hcode, rfl, rfl⟩, others, _, hrest, rfl, rfl⟩ := h
    obtain ⟨hu, hcode'⟩ := emitUnit_session (hbody f (by simp)) hs hcode
    have hrest' := ih (fun g hg => hbody g (by simp [hg])) hu hrest
    exact ⟨_, _, ⟨code, _, hcode', rfl, rfl⟩, others, _, hrest', rfl, rfl⟩

end Widening

/-! ## Compilations -/

/-- Whether a program takes no address and follows no constant to one. -/
def Program.hidesAddresses (program : Program) : Bool :=
  Stmt.blockHidesAddresses program.main &&
    program.functions.all fun f => Stmt.blockHidesAddresses f.body

theorem SparesNames.avoidsRegisters (h : SparesNames program.definitions) :
    program.AvoidsRegisters := by
  intro tokens htokens t ht hkind
  have hmem : (Place.global, .variables tokens) ∈ program.definitions :=
    List.mem_append_left _ (List.mem_map_of_mem htokens)
  exact (h .global tokens hmem rfl t ht hkind).1

theorem Widening.assemble_session (w : Widening) {s built t : Session}
    {a : Assembly} (hstart : Session.start options = .ok s)
    (hbuild : result (Session.build program) s = (.ok (), built)) (hcount : w.count = options.registers)
    (hlimit : w.count + w.more ≤ 10) (hwords : w.words = built.table.next)
    (hhides : program.hidesAddresses = true) (hspares : SparesNames program.definitions)
    (hroom : built.Roomy) (h : result (Session.assemble program) s = (.ok a, t)) :
    ∃ header, result (Session.assemble program) (w.session s) =
      (.ok { a with header }, w.session t) := by
  simp only [Program.hidesAddresses, Bool.and_eq_true, List.all_eq_true] at hhides
  have hreached := (Session.Reached.start hstart).build hbuild
  have hsound : built.Sound := by
    have h := (Session.keeps_build hspares.avoidsRegisters s (Session.sound_start hstart)).1
    rwa [hbuild] at h
  have hcovers := hreached.covers hsound ((Session.laid_start hstart).build hbuild).table hspares hroom
    hcount hlimit hwords
  have hplain : s.Plain w.count := hcount ▸ Session.fronted_start hstart
  have hbuild' := (shifted_build hlimit hspares.avoidsRegisters s hplain).2
  rw [hbuild] at hbuild'
  simp only [Session.assemble, result_bind_eq_ok, result_get, result_pure, Prod.mk.injEq,
    Except.ok.injEq] at h ⊢
  obtain ⟨_, _, hbuilt, main, emitted, hmain, _, _, ⟨rfl, rfl⟩, functions, _, hfunctions, rfl, rfl⟩ := h
  obtain ⟨-, rfl⟩ := Prod.mk.inj (hbuild.symm.trans hbuilt)
  obtain ⟨hemitted, hmain'⟩ := emitUnit_session hhides.1 hcovers hmain
  exact ⟨_, _, _, hbuild', main, _, hmain', _, _, ⟨rfl, rfl⟩, functions, _,
    compileFunctions_session hhides.2 hemitted hfunctions, rfl, rfl⟩

/-- The session in which a program is emitted: its pragmas are applied and all is laid out. -/
def Program.session? (options : Options) (program : Program) : Option Session :=
  match result (Options.applyPragmas program.pragmas) options with
  | (.ok (), options) => program.layout? options
  | (.error _, _) => none

theorem compile_eq_ok_iff {options : Options} {c : Compiled} :
    compile options program = .ok c ↔ ∃ o s t,
      result (Options.applyPragmas program.pragmas) options = (.ok (), o) ∧
      Session.start o = .ok s ∧ result (Session.assemble program) s = (.ok c.assembly, t) ∧
      c.warnings = t.journal ∧ c.table = t.table := by
  have hpragmas : (Options.applyPragmas program.pragmas).run.run options =
    result (Options.applyPragmas program.pragmas) options := rfl
  have hassemble (s : Session) : (Session.assemble program).run.run s =
    result (Session.assemble program) s := rfl
  simp only [compile, Session.compile, hpragmas, hassemble]
  rcases result (Options.applyPragmas program.pragmas) options with ⟨failure | _, o⟩
  · simp [bind, Except.bind]
  simp only [bind, Except.bind]
  constructor
  · intro h
    cases hs : Session.start o with
    | error failure => simp [hs] at h
    | ok s =>
      simp only [hs] at h
      rcases ha : result (Session.assemble program) s with ⟨failure | a, t⟩ <;> rw [ha] at h
      · simp [Except.map] at h
      · obtain rfl := Except.ok.inj h
        exact ⟨o, s, t, rfl, hs, ha, rfl, rfl⟩
  · rintro ⟨_, s, t, heq, hs, ha, hwarnings, htable⟩
    obtain ⟨-, rfl⟩ := Prod.mk.inj heq
    simp only [hs, ha, Except.map, ← hwarnings, ← htable]

/-- More registers never change what stands after the header: if a program compiles with some number
of registers, it compiles with every larger one, to the same code with the same warnings. -/
theorem code_unchanged_by_more_registers {options : Options} (count : Nat) {program : Program}
    {c : Compiled} (hhides : program.hidesAddresses = true)
    (hspares : SparesNames program.definitions)
    (hroom : ∀ s, program.session? options = some s → s.Roomy) (hle : options.registers ≤ count)
    (hvalid : ({ options with registers := count } : Options).fault? = none)
    (h : compile options program = .ok c) :
    ∃ c', compile { options with registers := count } program = .ok c' ∧
      c'.warnings = c.warnings ∧ c'.assembly.main = c.assembly.main ∧
      c'.assembly.functions = c.assembly.functions ∧
      ∃ rest, c.assembly.text = c.assembly.header.text ++ rest ∧
        c'.assembly.text = c'.assembly.header.text ++ rest := by
  obtain ⟨o, s, t, hpragmas, hstart, hassemble, hwarnings, htable⟩ := compile_eq_ok_iff.mp h
  have hcount : count ≠ 0 ∧ count ≤ 10 := by
    simp only [Options.fault?] at hvalid
    grind
  obtain ⟨o', hpragmas', henlarged⟩ :=
    Options.Enlarged.applyPragmas (.inr ⟨hle, rfl⟩) hcount hpragmas
  have htext (a : Assembly) : a.text = a.header.text ++ ("\n" ++ a.main.text ++
      String.join (a.functions.map fun f => "\n" ++ (Assembly.functionCode f).text)) := by
    simp only [Assembly.text, String.append_assoc]
  rcases henlarged with rfl | ⟨hbelow, rfl⟩
  · -- a pragma has set the number of registers
    have hc := compile_eq_ok_iff.mpr ⟨_, s, t, hpragmas', hstart, hassemble, hwarnings, htable⟩
    exact ⟨c, hc, rfl, rfl, rfl, _, htext _, htext _⟩
  · obtain ⟨_, built, hbuild, -⟩ := result_bind_eq_ok.mp hassemble
    have hlayout : program.session? options = some built := by
      simp only [Program.session?, hpragmas, Program.layout?, hstart, hbuild]
    let w : Widening := ⟨o.registers, count - o.registers, built.table.next⟩
    have hsum : w.count + w.more = count := Nat.add_sub_of_le hbelow
    have hfault : ({ o with registers := w.count + w.more } : Options).fault? = none :=
      hsum ▸ Options.fault?_registers ((Session.start_eq_ok hstart).1) hcount
    have hstart' := w.start_session rfl hstart hfault
    rw [hsum] at hstart'
    obtain ⟨header, hassemble'⟩ := w.assemble_session hstart hbuild rfl (hsum ▸ hcount.2) rfl hhides
      hspares (hroom built hlayout) hassemble
    refine ⟨⟨{ c.assembly with header }, t.journal, (w.session t).table⟩, ?_, hwarnings.symm, rfl, rfl,
      _, htext _, htext _⟩
    exact compile_eq_ok_iff.mpr ⟨_, _, _, hpragmas', hstart', hassemble', rfl, rfl⟩

/-- An array `t` with a runtime index and a constant one, a call, and one ready-made constant. -/
def indexingProgram : Program where
  pragmas := [{ name := "maxConstVars", value := "1", line := 1 }]
  main := [.declaration [.keyword "long" 1, .ident "a" 1, .comma 1, .ident "t" 1, .array 4 1],
    .expression (.assign none (.lookup "t" [.index (.binary .add (.var "a" 2) (.long 1 2) 2)] 2)
      (.binary .mul (.call "f" [.lookup "t" [.index (.long 2 2)] 2] 2) (.var "a" 2) 2) 2)]
  functions :=
    [{ name := "f", returnType := .long, line := 3, arguments := [.keyword "long" 3, .ident "r5" 3],
       body := [.ret (some (.binary .sub (.var "r5" 4) (.var "a" 4) 4)) 4] }]

/-- With two registers or with nine, the code is the same. -/
theorem indexingProgram_unchanged : ∃ c c' rest, compile { registers := 2 } indexingProgram = .ok c ∧
    compile { registers := 9 } indexingProgram = .ok c' ∧ c'.warnings = c.warnings ∧
    c.assembly.functions ≠ [] ∧ c.assembly.text = c.assembly.header.text ++ rest ∧
    c'.assembly.text = c'.assembly.header.text ++ rest := by
  have hcompiled : ((compile { registers := 2 } indexingProgram).toOption.any fun c =>
      c.assembly.functions.length = 1) = true := by decide +kernel
  obtain ⟨c, hc, hfunctions⟩ := (Option.any_eq_true _ _).mp hcompiled
  have hspares : SparesNames indexingProgram.definitions := by
    intro place tokens hmem hscope t ht hkind
    have hdefinitions : indexingProgram.definitions =
        [(.global, .variables [.keyword "long" 1, .ident "a" 1, .comma 1, .ident "t" 1, .array 4 1]),
          (.arguments "f", .variables [.keyword "long" 3, .ident "r5" 3])] := rfl
    simp only [hdefinitions, List.mem_cons, Prod.mk.injEq, Definition.variables.injEq,
      List.not_mem_nil, or_false] at hmem
    obtain ⟨rfl, rfl⟩ | ⟨rfl, rfl⟩ := hmem
    · have hvalue : t.value = "a" ∨ t.value = "t" := by
        revert hkind
        revert t
        decide
      rcases hvalue with hvalue | hvalue <;> rw [hvalue] <;>
        simp [isRegisterName, String.ext_iff, toString]
    · exact absurd hscope (by decide)
  have hroom : ∀ s, indexingProgram.session? { registers := 2 } = some s → s.Roomy := by
    intro s hs
    have hcheck : ((indexingProgram.session? { registers := 2 }).all fun s =>
        s.table.next ≤ 20 && s.catalog.all fun shape => shape.cells ≤ 20) = true := by
      decide +kernel
    simp only [hs, Option.all_some, Bool.and_eq_true, decide_eq_true_eq, List.all_eq_true] at hcheck
    refine ⟨Nat.lt_of_le_of_lt (Nat.add_le_add_right hcheck.1 10) (by decide), fun shape hshape => ?_⟩
    have hwords := Nat.add_le_add (Nat.add_le_add_right hcheck.1 10) (hcheck.2 shape hshape)
    exact Nat.lt_of_le_of_lt hwords (by decide)
  obtain ⟨c', hc', hwarnings, -, -, rest, htext⟩ := code_unchanged_by_more_registers 9
    (by decide) hspares hroom (by decide) (by decide) (eq_ok_of_toOption hc)
  refine ⟨c, c', rest, eq_ok_of_toOption hc, hc', hwarnings, ?_, htext⟩
  rintro hnil
  simp [hnil] at hfunctions

/-- A function without a name, so that its variable `r5` is in the scope of the globals. -/
def unnamedFunction : Program where
  functions :=
    [{ name := "", returnType := .void, line := 1,
       body := [.declaration [.keyword "long" 1, .ident "r5" 1],
         .expression (.assign none (.var "r5" 2) (.long 7 2) 2)] }]

/-- With three registers the function sets its variable, with six it sets a register. -/
theorem unnamedFunction_sets_register : unnamedFunction.hidesAddresses = true ∧
    Stmt.blockDefinitions unnamedFunction.main = [] ∧
    (compile { registers := 3 } unnamedFunction).toOption.map (·.assembly.functions) =
      some [("", [.setImmediate "_r5" (Hex.ofWord 7), .ret])] ∧
    (compile { registers := 6 } unnamedFunction).toOption.map (·.assembly.functions) =
      some [("", [.setImmediate "r5" (Hex.ofWord 7), .ret])] := by
  refine ⟨by decide, rfl, by decide +kernel, by decide +kernel⟩

end Flatword
