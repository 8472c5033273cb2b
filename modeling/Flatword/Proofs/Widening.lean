import Flatword.Proofs.Access
import Flatword.Proofs.Scratch

/-!
# Room for more registers

With more registers, all that lies behind them moves up. A `Widening` says what becomes of addresses,
slots, tables, pools and scopes. A step that follows another one succeeds wherever the other does, from
the widened scope, and gives the same up to addresses.
-/

namespace Flatword

/-! ## Steps that follow others -/

section Follows

variable {ρ ε σ α β γ δ : Type} {S : σ → σ → Prop} {R R' : α → β → Prop} {Q : γ → δ → Prop}
  {m n : ReaderT ρ (ExceptT ε (StateM σ)) α} {m' n' : ReaderT ρ (ExceptT ε (StateM σ)) β}

/-- Where the first step succeeds, the second one succeeds from every state that belongs to the first
one's, with a result and a state that belong together again. -/
def Follows (S : σ → σ → Prop) (R : α → β → Prop) (m : ReaderT ρ (ExceptT ε (StateM σ)) α)
    (m' : ReaderT ρ (ExceptT ε (StateM σ)) β) : Prop :=
  ∀ ⦃r : ρ⦄ ⦃s s' : σ⦄ ⦃a : α⦄ ⦃t : σ⦄, S s s' → Gives m r s a t →
    ∃ b t', Gives m' r s' b t' ∧ R a b ∧ S t t'

theorem Follows.mono (h : Follows S R m m') (hR : ∀ {a b}, R a b → R' a b) : Follows S R' m m' := by
  intro r s s' a t hs hm
  obtain ⟨b, t', hm', hab, ht⟩ := h hs hm
  exact ⟨b, t', hm', hR hab, ht⟩

theorem follows_pure {a : α} {b : β} (h : R a b) :
    Follows S R (pure a : ReaderT ρ (ExceptT ε (StateM σ)) α) (pure b) := by
  intro r s s' x t hs hm
  obtain ⟨rfl, rfl⟩ := gives_pure.mp hm
  exact ⟨b, s', gives_pure.mpr ⟨rfl, rfl⟩, h, hs⟩

theorem Follows.bind {k : α → ReaderT ρ (ExceptT ε (StateM σ)) γ}
    {k' : β → ReaderT ρ (ExceptT ε (StateM σ)) δ} (hm : Follows S R m m')
    (hk : ∀ {a b}, R a b → Follows S Q (k a) (k' b)) : Follows S Q (m >>= k) (m' >>= k') := by
  intro r s s' c t hs h
  obtain ⟨a, u, ha, h⟩ := gives_bind.mp h
  obtain ⟨b, u', hb, hab, hu⟩ := hm hs ha
  obtain ⟨d, t', hd, hcd, ht⟩ := hk hab hu h
  exact ⟨d, t', gives_bind.mpr ⟨b, u', hb, hd⟩, hcd, ht⟩

theorem Follows.bindSame {m m' : ReaderT ρ (ExceptT ε (StateM σ)) α}
    {k k' : α → ReaderT ρ (ExceptT ε (StateM σ)) γ} {Q : γ → γ → Prop} (hm : Follows S Eq m m')
    (hk : ∀ a, Follows S Q (k a) (k' a)) : Follows S Q (m >>= k) (m' >>= k') :=
  hm.bind fun {a _} hab => hab ▸ hk a

theorem Follows.ite {c c' : Prop} [Decidable c] [Decidable c'] (hc : c ↔ c')
    (hm : c → Follows S R m m') (hn : ¬ c → Follows S R n n') :
    Follows S R (if c then m else n) (if c' then m' else n') := by
  by_cases h : c
  · rw [if_pos h, if_pos (hc.mp h)]
    exact hm h
  · rw [if_neg h, if_neg (hc.not.mp h)]
    exact hn h

theorem follows_throw {e : ε} :
    Follows S R (throw e : ReaderT ρ (ExceptT ε (StateM σ)) α) m' :=
  fun _ _ _ _ _ _ h => absurd h gives_throw

theorem follows_read : Follows S Eq (read : ReaderT ρ (ExceptT ε (StateM σ)) ρ) read := by
  intro r s s' a t hs hm
  obtain ⟨rfl, rfl⟩ := gives_read.mp hm
  exact ⟨r, s', gives_read.mpr ⟨rfl, rfl⟩, rfl, hs⟩

theorem follows_get : Follows S S (get : ReaderT ρ (ExceptT ε (StateM σ)) σ) get := by
  intro r s s' a t hs hm
  obtain ⟨rfl, rfl⟩ := gives_get.mp hm
  exact ⟨s', s', gives_get.mpr ⟨rfl, rfl⟩, hs, hs⟩

theorem follows_set {t t' : σ} (h : S t t') :
    Follows S Eq (set t : ReaderT ρ (ExceptT ε (StateM σ)) PUnit) (set t') := by
  intro r s s' a u hs hm
  obtain rfl := gives_set.mp hm
  exact ⟨_, t', gives_set.mpr rfl, rfl, h⟩

theorem follows_modify {g g' : σ → σ} (h : ∀ {s s'}, S s s' → S (g s) (g' s')) :
    Follows S Eq (modify g : ReaderT ρ (ExceptT ε (StateM σ)) PUnit) (modify g') := by
  intro r s s' a t hs hm
  obtain rfl := gives_modify.mp hm
  exact ⟨_, g' s', gives_modify.mpr rfl, rfl, h hs⟩

theorem Follows.withReader {g : ρ → ρ} (h : Follows S R m m') :
    Follows S R (withReader g m) (withReader g m') :=
  fun _ _ _ _ _ hs hm => h hs hm

end Follows

namespace Lower

variable {α β : Type} {S : Scope → Scope → Prop} {R : α → β → Prop} {m : Lower α} {m' : Lower β}

theorem follows_fail {cause : Cause} : Follows S R (fail cause : Lower α) m' :=
  fun _ _ _ _ _ _ h => absurd h gives_fail

theorem follows_fail_bind {γ : Type} {cause : Cause} {k : γ → Lower α} :
    Follows S R ((fail cause : Lower γ) >>= k) m' := by
  intro f s s' a t hs h
  simp at h

theorem follows_orFail {o : Option α} {o' : Option β} {cause cause' : Cause}
    (h : ∀ a ∈ o, ∃ b ∈ o', R a b) : Follows S R (orFail o cause) (orFail o' cause') := by
  intro r s s' a t hs hm
  obtain ⟨ho, rfl⟩ := gives_orFail.mp hm
  obtain ⟨b, hb, hab⟩ := h a ho
  exact ⟨b, s', gives_orFail.mpr ⟨hb, rfl⟩, hab, hs⟩

theorem follows_orFail_eq {o : Option α} {cause cause' : Cause} :
    Follows S Eq (orFail o cause) (orFail o cause') :=
  follows_orFail fun a ha => ⟨a, ha, rfl⟩

end Lower

theorem Follows.onSide {α β : Type} {S : Scope → Scope → Prop} {R : α → β → Prop} {m : Lower α}
    {m' : Lower β} {b : Bool} (h : Follows S R m m') :
    Follows S R (Lower.onSide b m) (Lower.onSide b m') :=
  h.withReader

/-! ## What moves up -/

/-- After the first `count` registers there are `more`. Before that, the table has `words` words. -/
structure Widening where
  count : Nat
  more : Nat
  words : Nat

namespace Widening

variable {a b : Nat} {asmName : String} {f : Frame} {s : Scope} {x y : Slot} (w : Widening)

/-- What becomes of an address. -/
def place (a : Nat) : Nat :=
  if a < w.count then a else a + w.more

def offset : Offset → Offset
  | .known words => .known words
  | .stored address => .stored (w.place address)

/-- A slot that has moved up. The header of an array still holds the address of its first cell. -/
def slot (x : Slot) : Slot :=
  { x with
    address := x.address.map w.place
    content := if x.kind = .array then
        x.address.map fun a => Hex.ofWord (UInt64.ofNat (w.place a + 1))
      else x.content
    offset := x.offset.map w.offset }

/-- A register of the table. -/
def register (i : Nat) : Slot :=
  { address := some i, name := s!"r{i}", asmName := s!"r{i}", kind := .register, type := .long,
    isSet := true, isDeclared := true }

def added : List Slot :=
  (List.range w.more).map fun i => register (w.count + i)

/-- Their names. -/
def names : List String :=
  w.added.map Slot.asmName

def splice : (n : Nat) → List Slot → List Slot
  | n + 1, x :: rest => w.slot x :: splice n rest
  | _, rest => w.added ++ rest.map w.slot

def table (t : Table) : Table where
  slots := w.splice w.count t.slots
  next := t.next + w.more

def session (s : Session) : Session :=
  { s with
    options := { s.options with registers := s.options.registers + w.more }
    table := w.table s.table }

def pool (p : Pool) : Pool :=
  ⟨p.registers.map (fun r => { r with slot := w.slot r.slot }) ++ w.added.map ({ slot := · })⟩

def reuse : Reuse → Reuse
  | .reserved target => .reserved (w.slot target)
  | .taken target => .taken (w.slot target)
  | r => r

def scope (s : Scope) : Scope where
  session := w.session s.session
  pool := w.pool s.pool
  reuse := w.reuse s.reuse
  post := s.post

variable {w}

/-! ## Addresses -/

theorem place_injective : Function.Injective w.place := by
  intro a b h
  simp only [place] at h
  split at h <;> split at h <;> omega

@[simp]
theorem place_inj : w.place a = w.place b ↔ a = b :=
  place_injective.eq_iff

theorem place_of_le (h : w.count ≤ a) : w.place a = a + w.more :=
  if_neg (Nat.not_lt.mpr h)

theorem place_ne_of_le_of_lt (hb : w.count ≤ b) (hlt : b < w.count + w.more) : b ≠ w.place a := by
  unfold place
  split <;> omega

@[simp]
theorem map_place_eq_map_place {a b : Option Nat} :
    a.map w.place = b.map w.place ↔ a = b :=
  (Option.map_injective place_injective).eq_iff

@[simp]
theorem map_place_eq_some_place {a : Option Nat} : a.map w.place = some (w.place b) ↔ a = some b :=
  map_place_eq_map_place (b := some b)

theorem exists_of_mem_added (h : x ∈ w.added) :
    ∃ i, w.count ≤ i ∧ i < w.count + w.more ∧ x = register i := by
  obtain ⟨i, hi, rfl⟩ := List.mem_map.mp h
  have hi := List.mem_range.mp hi
  exact ⟨w.count + i, by omega, by omega, rfl⟩

theorem ne_place_of_mem_added (h : x ∈ w.added) (a : Nat) : x.address ≠ some (w.place a) := by
  obtain ⟨i, hi, hlt, rfl⟩ := exists_of_mem_added h
  simpa [register] using place_ne_of_le_of_lt hi hlt

/-! ## Slots and tables -/

@[simp]
theorem slot_ofWord (word : Word) : w.slot (.ofWord word) = .ofWord word := rfl

@[simp]
theorem slot_constant (hex : String) : w.slot (.constant hex) = .constant hex := rfl

theorem slot_isConstant (x : Slot) : (w.slot x).isConstant = x.isConstant := by
  simp [Slot.isConstant, slot]

theorem slot_isPlain (x : Slot) : (w.slot x).isPlain = x.isPlain := by
  simp [Slot.isPlain, slot]

theorem slot_content (h : x.kind ≠ .array) : (w.slot x).content = x.content :=
  if_neg h

theorem slot_value? (h : x.kind ≠ .array) : (w.slot x).value? = x.value? := by
  rw [Slot.value?, slot_content h, Slot.value?]

theorem slot_isValue (x : Slot) (word : Word) : (w.slot x).isValue word = x.isValue word := by
  unfold Slot.isValue
  rw [slot_isConstant]
  by_cases h : x.kind = .array
  · simp [Slot.isConstant, h]
  · rw [slot_value? h]

theorem splice_zero (slots : List Slot) : w.splice 0 slots = w.added ++ slots.map w.slot := by
  cases slots <;> rfl

theorem find?_congr_of_mem {p q : Slot → Bool} {slots : List Slot} (h : ∀ x ∈ slots, p x = q x) :
    slots.find? p = slots.find? q := by
  induction slots with
  | nil => rfl
  | cons x rest ih =>
    rw [List.find?_cons, List.find?_cons, h x (by simp), ih fun y hy => h y (by simp [hy])]

theorem find?_splice {p : Slot → Bool} (h : ∀ x ∈ w.added, p x = false) (n : Nat)
    (slots : List Slot) :
    (w.splice n slots).find? p = (slots.find? fun x => p (w.slot x)).map w.slot := by
  have hadded : w.added.find? p = none := List.find?_eq_none.mpr fun x hx => by simp [h x hx]
  fun_induction splice w n slots with
  | case1 n x rest ih =>
    rw [List.find?_cons, List.find?_cons]
    cases p (w.slot x)
    · exact ih
    · rfl
  | case2 n rest => rw [List.find?_append, hadded, Option.none_or, List.find?_map]; rfl

theorem findAsm?_table {t : Table} (h : asmName ∉ w.names) :
    (w.table t).findAsm? asmName = (t.findAsm? asmName).map w.slot := by
  refine find?_splice (fun x hx => decide_eq_false fun heq => h ?_) w.count t.slots
  exact heq ▸ List.mem_map_of_mem hx

theorem findAt?_table (t : Table) (a : Nat) :
    (w.table t).findAt? (w.place a) = (t.findAt? a).map w.slot := by
  unfold Table.findAt? table
  rw [find?_splice fun x hx => by simp [ne_place_of_mem_added hx a]]
  simp [slot]

theorem findNamed?_table {t : Table} {name scope : String} (h : scope = "" → name ∉ w.names) :
    (w.table t).findNamed? name scope = (t.findNamed? name scope).map w.slot := by
  refine find?_splice (fun x hx => ?_) w.count t.slots
  obtain ⟨i, -, -, rfl⟩ := exists_of_mem_added hx
  rw [Bool.and_eq_false_imp]
  intro hname
  refine decide_eq_false fun hscope => h hscope.symm ?_
  exact of_decide_eq_true hname ▸ List.mem_map_of_mem hx

theorem findConstant?_table {t : Table} {asmName hex : String}
    (h : ∀ x ∈ t.slots, x.asmName = asmName → x.kind ≠ .array) :
    (w.table t).findConstant? asmName hex = (t.findConstant? asmName hex).map w.slot := by
  unfold Table.findConstant? table
  rw [find?_splice]
  · congr 1
    refine find?_congr_of_mem fun x hx => ?_
    by_cases hname : x.asmName = asmName
    · rw [slot_content (h x hx hname)]
      rfl
    · simp [slot, hname]
  · intro x hx
    obtain ⟨i, -, -, rfl⟩ := exists_of_mem_added hx
    simp [register]

theorem go_splice {change : Slot → Slot} (h : asmName ∉ w.names) (n : Nat) {slots : List Slot}
    (hchange : ∀ x ∈ slots, x.asmName = asmName → change (w.slot x) = w.slot (change x)) :
    Table.updateAsm.go asmName change (w.splice n slots) =
      w.splice n (Table.updateAsm.go asmName change slots) := by
  have hmap {slots : List Slot}
      (hchange : ∀ x ∈ slots, x.asmName = asmName → change (w.slot x) = w.slot (change x)) :
      Table.updateAsm.go asmName change (slots.map w.slot) =
        (Table.updateAsm.go asmName change slots).map w.slot := by
    induction slots with
    | nil => rfl
    | cons x rest ih =>
      simp only [List.map_cons, Table.updateAsm.go, show (w.slot x).asmName = x.asmName from rfl]
      split
      · next hname => rw [hchange x (by simp) hname, List.map_cons]
      · rw [ih fun y hy => hchange y (by simp [hy]), List.map_cons]
  have hadded {front rest : List Slot} (hfront : asmName ∉ front.map Slot.asmName) :
      Table.updateAsm.go asmName change (front ++ rest) =
        front ++ Table.updateAsm.go asmName change rest := by
    induction front with
    | nil => rfl
    | cons x front ih =>
      simp only [List.map_cons, List.mem_cons, not_or] at hfront
      rw [List.cons_append, Table.updateAsm.go, if_neg (Ne.symm hfront.1), ih hfront.2,
        List.cons_append]
  fun_induction splice w n slots with
  | case1 n x rest ih =>
    simp only [Table.updateAsm.go, show (w.slot x).asmName = x.asmName from rfl]
    split
    · next hname => rw [hchange x (by simp) hname, splice]
    · rw [ih fun y hy => hchange y (by simp [hy]), splice]
  | case2 n rest hshape =>
    rw [hadded h, hmap hchange]
    cases n with
    | zero => rw [splice_zero]
    | succ n =>
      cases rest with
      | nil => rfl
      | cons x rest => exact absurd rfl (hshape n x rest rfl)

theorem updateAsm_table {t : Table} {change : Slot → Slot} (h : asmName ∉ w.names)
    (hchange : ∀ x ∈ t.slots, x.asmName = asmName → change (w.slot x) = w.slot (change x)) :
    (w.table t).updateAsm asmName change = w.table (t.updateAsm asmName change) := by
  simp only [Table.updateAsm, table, go_splice h w.count hchange]

theorem markSet_table {t : Table} (h : asmName ∉ w.names) :
    (w.table t).markSet asmName = w.table (t.markSet asmName) :=
  updateAsm_table h fun _ _ _ => rfl

/-! ## Pools -/

theorem takeFirst?_append {rs later rs' : List Register} (h : Pool.takeFirst? rs = some (x, rs')) :
    Pool.takeFirst? (rs.map (fun r => { r with slot := w.slot r.slot }) ++ later) =
      some (w.slot x, rs'.map (fun r => { r with slot := w.slot r.slot }) ++ later) := by
  induction rs generalizing rs' with
  | nil => simp [Pool.takeFirst?] at h
  | cons r rs ih =>
    rw [Pool.takeFirst?] at h
    rw [List.map_cons, List.cons_append, Pool.takeFirst?]
    split at h
    · next hr =>
      obtain ⟨⟨y, taken⟩, htake, heq⟩ := Option.map_eq_some_iff.mp h
      obtain ⟨rfl, rfl⟩ := Prod.mk.inj heq
      rw [if_pos hr, ih htake]
      rfl
    · next hr =>
      obtain ⟨rfl, rfl⟩ := Prod.mk.inj (Option.some.inj h)
      rw [if_neg hr]
      rfl

theorem allocate?_pool {p q : Pool} (h : p.allocate? = some (x, q)) :
    (w.pool p).allocate? = some (w.slot x, w.pool q) := by
  obtain ⟨⟨y, rs⟩, htake, heq⟩ := Option.map_eq_some_iff.mp h
  obtain ⟨rfl, rfl⟩ := Prod.mk.inj heq
  rw [Pool.allocate?, pool, takeFirst?_append htake]
  rfl

theorem release_pool (p : Pool) (address : Option Nat) :
    (w.pool p).release (address.map w.place) = w.pool (p.release address) := by
  obtain _ | a := address
  · rfl
  have hadded {rs : List Register} (hrs : ∀ r ∈ rs, r.slot.address ≠ some (w.place a)) :
      Pool.freeFirst (w.place a) rs = rs := by
    induction rs with
    | nil => rfl
    | cons r rs ih =>
      rw [Pool.freeFirst, if_neg (hrs r (by simp)), ih fun y hy => hrs y (by simp [hy])]
  have hfree (rs : List Register) :
      Pool.freeFirst (w.place a) (rs.map (fun r => { r with slot := w.slot r.slot }) ++
          w.added.map ({ slot := · })) =
        (Pool.freeFirst a rs).map (fun r => { r with slot := w.slot r.slot }) ++
          w.added.map ({ slot := · }) := by
    induction rs with
    | nil =>
      refine hadded fun r hr => ?_
      obtain ⟨x, hx, rfl⟩ := List.mem_map.mp hr
      exact ne_place_of_mem_added hx a
    | cons r rs ih =>
      rw [List.map_cons, List.cons_append, Pool.freeFirst, Pool.freeFirst]
      by_cases hr : r.slot.address = some a
      · have hr' : (w.slot r.slot).address = some (w.place a) := map_place_eq_some_place.mpr hr
        rw [if_pos hr, if_pos hr']
        rfl
      · have hr' : (w.slot r.slot).address ≠ some (w.place a) := map_place_eq_some_place.not.mpr hr
        rw [if_neg hr, if_neg hr', ih]
        rfl
  exact congrArg Pool.mk (hfree p.registers)

theorem contains_pool (p : Pool) (a : Nat) :
    (w.pool p).contains (some (w.place a)) = p.contains (some a) := by
  have hadded : (w.added.map ({ slot := · } : Slot → Register)).any
      (fun r => decide (r.slot.address = some (w.place a))) = false := by
    rw [List.any_eq_false]
    intro r hr
    obtain ⟨x, hx, rfl⟩ := List.mem_map.mp hr
    simpa using ne_place_of_mem_added hx a
  simp only [Pool.contains, pool, List.any_append, hadded, Bool.or_false, List.any_map]
  congr 1
  refine List.any_congr rfl fun r => ?_
  simp [slot]

theorem inUse_pool (p : Pool) : (w.pool p).inUse = p.inUse.map w.slot := by
  have hadded : (w.added.map ({ slot := · } : Slot → Register)).filter (·.inUse) = [] := by
    rw [List.filter_eq_nil_iff]
    intro r hr
    obtain ⟨x, hx, rfl⟩ := List.mem_map.mp hr
    simp
  simp only [Pool.inUse, pool, List.filter_append, hadded, List.append_nil, List.filter_map,
    List.map_map]
  rfl

theorem taken?_reuse (r : Reuse) : (w.reuse r).taken? = r.taken?.map w.slot := by
  cases r <;> rfl

theorem isTemp_scope (s : Scope) (x : Slot) : (w.scope s).isTemp (w.slot x) = s.isTemp x := by
  unfold Scope.isTemp
  rcases hx : x.address with _ | a
  · simp [slot, hx]
  · have haddress : (w.slot x).address = some (w.place a) := by simp [slot, hx]
    have htaken : (w.scope s).reuse.taken? = s.reuse.taken?.map w.slot := taken?_reuse s.reuse
    rw [haddress, show (w.scope s).pool = w.pool s.pool from rfl, contains_pool, htaken]
    cases s.reuse.taken? <;> simp [slot]

theorem liveValues_scope (s : Scope) : (w.scope s).liveValues = s.liveValues.map w.slot := by
  rw [Scope.liveValues, show (w.scope s).pool = w.pool s.pool from rfl, inUse_pool,
    show (w.scope s).reuse.taken? = s.reuse.taken?.map w.slot from taken?_reuse s.reuse,
    Scope.liveValues, List.map_append]
  cases s.reuse.taken? <;> rfl

/-! ## Scopes in which addresses do not show -/

variable (w)

/-- A value that means the same when it has moved: a constant is not followed to an address, and an
array lies behind the registers and holds the address of its first cell. -/
structure Shifts (x : Slot) : Prop where
  constant : x.kind = .constant → x.offset = none ∧ x.address = none
  array : x.kind = .array → (∀ words, x.offset ≠ some (.known words)) ∧
    ∃ a, x.address = some a ∧ w.count ≤ a ∧ a < w.words ∧
      x.content = some (Hex.ofWord (UInt64.ofNat (a + 1)))

/-- Slots and shapes that can move up: no name is that of an added register, no array passes for a
constant, and no address leaves the memory. -/
structure Covers (slots : List Slot) (catalog : Catalog) : Prop where
  limit : w.count + w.more ≤ 10
  names : ∀ x ∈ slots, x.asmName ∉ w.names
  globals : ∀ x ∈ slots, x.scope = "" → x.name ∉ w.names
  front : ∀ x ∈ slots.drop w.count, isRegisterName x.asmName = false
  registers : ∀ x ∈ slots, isRegisterName x.asmName = true → x.kind.isRegular = true
  distinct : (slots.map Slot.asmName).Nodup
  values : ∀ x ∈ slots, x.kind ≠ .constant
  shifts : ∀ x ∈ slots, w.Shifts x
  addresses : ∀ x ∈ slots, x.kind ≠ .struct → ∀ a ∈ x.address, a < w.words
  constants : ∀ x ∈ slots, x.kind = .array → ∀ v : Word, x.asmName ≠ s!"n{v}" ∧ x.asmName ≠ s!"f{v}"
  room : w.words + w.more < wordLimit
  shapes : ∀ shape, Shape.array shape ∈ catalog →
    shape.strides = ArrayShape.stridesOf (UInt64.ofNat shape.template.size) shape.dimensions ∧
      w.words + w.more + ArrayShape.cellCount shape.dimensions * shape.template.size < wordLimit

/-- A scope in the middle of a statement that can move up. -/
structure Fits (s : Scope) : Prop where
  covers : w.Covers s.ground.slots s.ground.catalog
  registers : ∀ x ∈ s.ground.registers, x.kind.isRegular = true
  target : ∀ x ∈ s.reuse.target?, x.kind.isRegular = true

def Twins (s s' : Scope) : Prop :=
  w.Fits s ∧ s' = w.scope s

/-- A slot and the same moved up; `c` says whether it may be a constant. -/
structure Slots (c : Bool) (x y : Slot) : Prop where
  shifts : w.Shifts x
  value : x.kind = .constant → c = true
  eq : y = w.slot x

def Scratch (x y : Slot) : Prop :=
  x.kind.isRegular = true ∧ y = w.slot x

structure Values (c : Bool) (v v' : Lower.Lowered) : Prop where
  slot : w.Slots c v.slot v'.slot
  code : v'.code = v.code

variable {w}

theorem shifts_of_isRegular (h : x.kind.isRegular = true) : w.Shifts x := by
  constructor <;> (intro hk; simp [hk, Kind.isRegular] at h)

theorem Scratch.slots (h : w.Scratch x y) (c : Bool) : w.Slots c x y :=
  ⟨shifts_of_isRegular h.1, fun hk => by simp [Scratch, hk, Kind.isRegular] at h, h.2⟩

theorem Slots.mono {c c' : Bool} (h : w.Slots c x y) (hc : c = true → c' = true) : w.Slots c' x y :=
  ⟨h.shifts, fun hk => hc (h.value hk), h.eq⟩

namespace Fits

variable {s t : Scope}

theorem of_leads (hs : w.Fits s) (h : s.Leads t) : w.Fits t := by
  have hground := h.ground
  refine ⟨hground ▸ hs.covers, hground ▸ hs.registers, h.target (fun target ht => ?_) hs.target⟩
  obtain ⟨-, -, hk | hk | hk, -⟩ := ht <;> simp [hk, Kind.isRegular]

theorem of_mem (hs : w.Fits s) {x : Slot} (hx : x ∈ s.session.table.slots) :
    x.asmName ∉ w.names ∧ (x.scope = "" → x.name ∉ w.names) ∧ x.kind ≠ .constant ∧ w.Shifts x := by
  have hmem : x.unmarked ∈ s.ground.slots := List.mem_map_of_mem hx
  obtain ⟨hconstant, harray⟩ := hs.covers.shifts x.unmarked hmem
  exact ⟨hs.covers.names x.unmarked hmem, hs.covers.globals x.unmarked hmem,
    hs.covers.values x.unmarked hmem, hconstant, harray⟩

theorem slots_of_mem (hs : w.Fits s) {x : Slot} (hx : x ∈ s.session.table.slots) :
    w.Slots false x (w.slot x) :=
  ⟨(hs.of_mem hx).2.2.2, fun hk => absurd hk (hs.of_mem hx).2.2.1, rfl⟩

end Fits

/-! ## The steps that touch the scope -/

open Lower

variable {α β : Type} {R : α → β → Prop}

theorem follows_of_gives {m : Lower α} [Orderly m] {m' : Lower β}
    (h : ∀ {f s a t}, w.Fits s → Gives m f s a t → ∃ b, R a b ∧ Gives m' f (w.scope s) b (w.scope t)) :
    Follows w.Twins R m m' := by
  rintro f s _ a t ⟨hs, rfl⟩ hm
  obtain ⟨b, hab, hm'⟩ := h hs hm
  exact ⟨b, w.scope t, hm', hab, hs.of_leads (leads_of_gives hm), rfl⟩

theorem follows_allocate : Follows w.Twins w.Scratch allocate allocate := by
  refine follows_of_gives fun {f s x t} hs hm => ?_
  have hreuse : (w.scope s).reuse = w.reuse s.reuse := rfl
  rcases allocate_cases hm with ⟨hr, rfl⟩ | ⟨hr, pool, hp, rfl⟩
  · refine ⟨w.slot x, ⟨hs.target x (by simp [hr, Reuse.target?]), rfl⟩, ?_⟩
    simp only [Gives, allocate, outcome_bind, outcome_get, hreuse, hr, reuse]
    rfl
  · refine ⟨w.slot x, ⟨hs.registers x (Pool.mem_slots_of_allocate? hp), rfl⟩, ?_⟩
    have hpool : (w.scope s).pool.allocate? = some (w.slot x, w.pool pool) :=
      allocate?_pool hp
    simp only [Gives, allocate, outcome_bind, outcome_get, hreuse, hpool]
    rcases hs' : s.reuse with _ | _ | target | target
    case reserved => exact absurd hs' (hr target)
    all_goals
      simp only [reuse, scope, hs']
      rfl

theorem follows_release (address : Option Nat) :
    Follows w.Twins Eq (release address) (release (address.map w.place)) := by
  refine follows_of_gives fun {f s x t} hs hm => ⟨x, rfl, ?_⟩
  obtain rfl := gives_modify.mp hm
  refine gives_modify.mpr ?_
  simp only [scope, release_pool]

theorem follows_releaseOperand (x : Slot) :
    Follows w.Twins Eq (releaseOperand x) (releaseOperand (w.slot x)) := by
  unfold releaseOperand
  refine (follows_release x.address).bind fun _ => ?_
  rcases ho : x.offset with _ | words | index <;> simp only [slot, ho, Option.map]
  · exact follows_pure rfl
  · exact follows_pure rfl
  · exact follows_release (some index)

theorem follows_releaseBeside (kept x : Slot) :
    Follows w.Twins Eq (releaseBeside kept x) (releaseBeside (w.slot kept) (w.slot x)) := by
  unfold releaseBeside
  refine .ite ?_ (fun _ => follows_releaseOperand x) fun _ => follows_pure rfl
  simp [slot]

theorem follows_isTemp (x : Slot) :
    Follows w.Twins (fun b b' => b' = b ∧ (b = true → x.address ≠ none)) (isTemp x)
      (isTemp (w.slot x)) := by
  refine follows_of_gives fun {f s b t} hs hm => ?_
  unfold Gives at hm
  simp only [isTemp, outcome_bind, outcome_get, outcome_pure, Prod.mk.injEq, Except.ok.injEq] at hm
  obtain ⟨rfl, rfl⟩ := hm
  refine ⟨s.isTemp x, ⟨rfl, fun htemp hnone => ?_⟩, ?_⟩
  · simp [Scope.isTemp, hnone] at htemp
  · simp only [Gives, isTemp, outcome_bind, outcome_get, outcome_pure, isTemp_scope]

theorem follows_reserveTarget (plain : Bool) (x : Slot) :
    Follows w.Twins Eq (reserveTarget plain x) (reserveTarget plain (w.slot x)) := by
  refine follows_of_gives fun {f s u t} hs hm => ⟨u, rfl, ?_⟩
  have hallowed : (w.scope s).reuse = .allowed ↔ s.reuse = .allowed := by
    rw [show (w.scope s).reuse = w.reuse s.reuse from rfl]
    cases s.reuse <;> simp [reuse]
  have hreservable : (w.slot x).Reservable plain ↔ x.Reservable plain := by
    simp [Slot.Reservable, slot]
  unfold Gives at hm ⊢
  simp only [outcome_reserveTarget, hallowed, hreservable, Prod.mk.injEq, true_and] at hm ⊢
  obtain rfl := hm
  by_cases hr : s.reuse = .allowed ∧ x.Reservable plain
  · simp only [if_pos hr]
    rfl
  · simp only [if_neg hr, scope]
    cases s.reuse <;> rfl

theorem follows_newJump : Follows w.Twins Eq newJump newJump := by
  refine follows_of_gives fun {f s id t} hs hm => ⟨id, rfl, ?_⟩
  have hm : (Except.ok s.session.newJump.1, { s with session := s.session.newJump.2 }) =
    ((.ok id, t) : Except Failure String × Scope) := hm
  obtain ⟨rfl, rfl⟩ : s.session.newJump.1 = id ∧ _ = t := by simpa using hm
  rfl

theorem follows_pushPost (up : Bool) (name : String) :
    Follows w.Twins Eq (pushPost [stepInstr up name]) (pushPost [stepInstr up name]) := by
  refine follows_of_gives fun {f s x t} hs hm => ⟨x, rfl, ?_⟩
  obtain rfl := gives_modify.mp hm
  exact gives_modify.mpr rfl

/-! ## Lookups -/

theorem noted_session {s : Session} (hname : x.asmName ∉ w.names) (hx : w.Shifts x) :
    w.session (s.noted f x) = (w.session s).noted f (w.slot x) := by
  have hnone : (w.slot x).content.isNone = x.content.isNone := by
    by_cases hk : x.kind = .array
    · obtain ⟨-, a, ha, -, -, hcontent⟩ := hx.array hk
      simp [slot, hk, ha, hcontent]
    · rw [slot_content hk]
  have hset : (w.slot x).isSet = x.isSet := rfl
  unfold Session.noted
  rw [hset, hnone]
  cases x.isSet
  · simp only [Bool.false_eq_true, if_false, session, slot,
      markSet_table hname]
  · rfl

theorem gives_noteUse_scope {s t : Scope} (hs : w.Fits s) (hx : x ∈ s.session.table.slots)
    (h : Gives (noteUse x) f s y t) :
    y = x ∧ Gives (noteUse (w.slot x)) f (w.scope s) (w.slot x) (w.scope t) := by
  obtain ⟨hname, -, -, hshifts⟩ := hs.of_mem hx
  unfold Gives at h ⊢
  rw [outcome_noteUse] at h ⊢
  obtain ⟨rfl, rfl⟩ : x = y ∧ _ = t := by simpa using h
  refine ⟨rfl, ?_⟩
  simp only [scope, noted_session hname hshifts]

theorem findNamed?_scope {name scope : String} (hs : w.Fits s)
    (h : s.session.table.findNamed? name scope = some x) :
    (w.table s.session.table).findNamed? name scope = some (w.slot x) ∧
      (scope = "" → name ∉ w.names) := by
  have hname : scope = "" → name ∉ w.names := by
    rintro rfl
    have hmem := (hs.of_mem (List.mem_of_find?_eq_some h)).2.1
    have hx := List.find?_some h
    simp only [Bool.and_eq_true, decide_eq_true_eq] at hx
    exact hx.1 ▸ hmem hx.2
  rw [findNamed?_table hname, h]
  exact ⟨rfl, hname⟩

theorem follows_lookup (name : String) :
    Follows w.Twins (w.Slots false) (lookup name) (lookup name) := by
  refine follows_of_gives fun {f s x t} hs hm => ?_
  simp only [lookup, gives_bind, gives_get, gives_read] at hm ⊢
  obtain ⟨_, _, ⟨rfl, rfl⟩, _, _, ⟨rfl, rfl⟩, hm⟩ := hm
  split at hm
  · next y hfound =>
    have hmem : y ∈ s.session.table.slots := mem_of_findNamed? hfound
    have hfound' : (f.function.bind ((w.table s.session.table).findNamed? name)).or
        ((w.table s.session.table).findNamed? name "") = some (w.slot y) := by
      rcases Option.or_eq_some_iff.mp hfound with hlocal | ⟨hlocal, hglobal⟩
      · obtain ⟨function, hfunction, hlocal⟩ := Option.bind_eq_some_iff.mp hlocal
        rw [hfunction, Option.bind_some, (findNamed?_scope hs hlocal).1, Option.some_or]
      · obtain ⟨hglobal, hname⟩ := findNamed?_scope hs hglobal
        have hnone : f.function.bind ((w.table s.session.table).findNamed? name) = none := by
          cases hf : f.function with
          | none => rfl
          | some function =>
            rw [hf, Option.bind_some] at hlocal
            rw [Option.bind_some, findNamed?_table fun _ => hname rfl, hlocal]
            rfl
        rw [hnone, Option.none_or, hglobal]
    obtain ⟨rfl, hgives⟩ := gives_noteUse_scope hs hmem hm
    refine ⟨w.slot x, hs.slots_of_mem hmem, _, _, ⟨rfl, rfl⟩, _, _, ⟨rfl, rfl⟩, ?_⟩
    rw [show (w.scope s).session.table = w.table s.session.table from rfl, hfound']
    exact hgives
  · simp at hm

theorem follows_lookupAsm? {leftSide : Bool} {k : Option Slot → Lower α} {k' : Option Slot → Lower β}
    (hnone : ∀ {f s a t}, ¬ Gives (k none) f s a t)
    (hsome : ∀ {x y}, w.Slots false x y → Follows w.Twins R (k (some x)) (k' (some y))) :
    Follows w.Twins R (onSide leftSide (lookupAsm? asmName) >>= k)
      (onSide leftSide (lookupAsm? asmName) >>= k') := by
  rintro f s _ a t ⟨hs, rfl⟩ hm
  simp only [gives_bind, gives_onSide] at hm
  obtain ⟨o, u, ho, hm⟩ := hm
  have hu := hs.of_leads (leads_of_gives ho)
  rw [lookupAsm?, gives_get_bind] at ho
  split at ho
  · next x hx =>
    simp only [gives_bind, gives_pure] at ho
    obtain ⟨y, _, hnote, rfl, rfl⟩ := ho
    have hmem := List.mem_of_find?_eq_some hx
    obtain ⟨rfl, hgives⟩ := gives_noteUse_scope hs hmem hnote
    have hasm : y.asmName = asmName := by simpa using List.find?_some (show List.find? _ _ = _ from hx)
    have hfound : (w.scope s).session.table.findAsm? asmName = some (w.slot y) := by
      rw [show (w.scope s).session.table = w.table s.session.table from rfl,
        findAsm?_table (hasm ▸ (hs.of_mem hmem).1), hx]
      rfl
    obtain ⟨b, t', hb, hab, ht⟩ := hsome (hs.slots_of_mem hmem) ⟨hu, rfl⟩ hm
    refine ⟨b, t', gives_bind.mpr ⟨some (w.slot y), _, ?_, hb⟩, hab, ht⟩
    simp only [gives_onSide, lookupAsm?, gives_bind, gives_get]
    refine ⟨_, _, ⟨rfl, rfl⟩, ?_⟩
    rw [hfound]
    exact gives_bind.mpr ⟨_, _, hgives, gives_pure.mpr ⟨rfl, rfl⟩⟩
  · obtain ⟨rfl, rfl⟩ := gives_pure.mp ho
    exact absurd hm hnone

theorem follows_lookupAt (address : Nat) :
    Follows w.Twins (w.Slots false) (lookupAt address) (lookupAt (w.place address)) := by
  refine follows_of_gives fun {f s x t} hs hm => ?_
  rw [lookupAt, gives_get_bind] at hm
  split at hm
  · next y hy =>
    have hmem := List.mem_of_find?_eq_some hy
    obtain ⟨rfl, hgives⟩ := gives_noteUse_scope hs hmem hm
    refine ⟨w.slot x, hs.slots_of_mem hmem, ?_⟩
    have hfound : (w.scope s).session.table.findAt? (w.place address) = some (w.slot x) := by
      rw [show (w.scope s).session.table = w.table s.session.table from rfl,
        findAt?_table, hy]
      rfl
    simp only [lookupAt, gives_bind, gives_get]
    refine ⟨_, _, ⟨rfl, rfl⟩, ?_⟩
    rw [hfound]
    exact hgives
  · simp at hm

theorem lookupAt_lt {s t : Scope} {address : Nat} (hs : w.Fits s) (h : Gives (lookupAt address) f s x t) :
    address < w.words := by
  rw [lookupAt, gives_get_bind] at h
  split at h
  · next y hy =>
    have hmem : y.unmarked ∈ s.ground.slots := List.mem_map_of_mem (List.mem_of_find?_eq_some hy)
    have hy := List.find?_some hy
    simp only [Bool.and_eq_true, decide_eq_true_eq] at hy
    exact hs.covers.addresses y.unmarked hmem hy.2 address hy.1
  · simp at h

theorem namedConstant?_scope (hs : w.Fits s) (hk : x.kind ≠ .array) :
    namedConstant? (w.scope s).session.table (w.slot x) =
      (namedConstant? s.session.table x).map w.slot := by
  unfold namedConstant?
  rw [slot_value? hk, show (w.slot x).type = x.type from rfl]
  cases x.value? with
  | none => rfl
  | some value =>
    refine findConstant?_table fun y hy hname hkind => ?_
    have hmem : y.unmarked ∈ s.ground.slots := List.mem_map_of_mem hy
    obtain ⟨hlong, hfixed⟩ := hs.covers.constants y.unmarked hmem hkind value
    by_cases htype : x.type = .fixed
    · exact hfixed (show y.asmName = _ by simpa [htype] using hname)
    · exact hlong (show y.asmName = _ by simpa [htype] using hname)

end Widening

end Flatword
