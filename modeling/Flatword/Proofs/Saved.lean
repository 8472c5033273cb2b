import Flatword.Proofs.Arguments
import Flatword.Proofs.Footing
import Flatword.Proofs.Linked

/-!
# Values saved around a call

Behind the arguments of a call, the target that has been handed out and the registers in use are pushed.
Whatever the function does to the memory, they are popped again in the opposite order.
-/

namespace Flatword

def Instr.falls : Instr → Bool
  | push _ | pop _ | call _ => true
  | instr => instr.isStraight

namespace Machine

variable {m : Machine} {μ : Memory} {names : List String}

/-- The word that a name with a place holds. -/
def word (m : Machine) (μ : Memory) (name : String) : Word :=
  (m.read μ name).getD 0

theorem word_of_place {name : String} {a : Nat} (h : m.place name = some a) : m.word μ name = μ a := by
  rw [word, read, h, Option.map_some, Option.getD_some]

theorem act_of_falls {instr : Instr} (h : instr.falls = true) (s : Store) :
    m.act s instr = .trap ∨ ∃ s', m.act s instr = .next s' := by
  cases instr with
  | push name => cases hread : m.read s.memory name <;> simp [act, hread]
  | pop name =>
    obtain ⟨memory, _ | ⟨w, stack⟩⟩ := s
    · simp [act]
    · cases hwrite : m.write memory name w <;> simp [act, hwrite]
  | call target => simp [act]
  | set | clear | inc | dec | not | arith =>
    simp only [act]
    split <;> simp
  | _ => simp [Instr.falls, Instr.isStraight] at h

theorem steps_of_flow (front part back : Code) {s s' : Store}
    (hpart : ∀ instr ∈ part, instr.falls = true)
    (h : m.flow part (.falling s) = .falling s') :
    m.Steps (front ++ part ++ back) (.at front.length s) (.at (front.length + part.length) s') := by
  induction part generalizing front s with
  | nil =>
    obtain rfl : s = s' := by simpa using h
    exact .refl
  | cons instr part ih =>
    have hcode : front ++ (instr :: part) ++ back = front ++ [instr] ++ part ++ back := by simp
    have hlength : front.length + (instr :: part).length = (front ++ [instr]).length + part.length := by
      simp
      omega
    rcases act_of_falls (m := m) (hpart instr (by simp)) s with htrap | ⟨s₁, hnext⟩
    · simp [pass, htrap] at h
    · rw [flow_cons, pass, hnext] at h
      rw [hcode, hlength]
      refine .head ?_ (ih (front ++ [instr]) (fun i hi => hpart i (by simp [hi])) h)
      simp [step, hnext]

theorem flow_push (h : ∀ name ∈ names, (m.place name).isSome = true) (μ : Memory) (stack : List Word) :
    m.flow (names.map .push) (.falling ⟨μ, stack⟩) =
      .falling ⟨μ, names.reverse.map (m.word μ) ++ stack⟩ := by
  induction names generalizing stack with
  | nil => rfl
  | cons name names ih =>
    obtain ⟨a, ha⟩ := Option.isSome_iff_exists.mp (h name (by simp))
    have hread : m.read μ name = some (m.word μ name) := by rw [word_of_place ha, read, ha, Option.map_some]
    have hpass : m.pass (.falling ⟨μ, stack⟩) (.push name) = .falling ⟨μ, m.word μ name :: stack⟩ := by
      simp [pass, act, hread]
    rw [List.map_cons, flow_cons, hpass, ih fun n hn => h n (by simp [hn])]
    simp

theorem flow_pop (h : ∀ name ∈ names, (m.place name).isSome = true) (μ ν : Memory)
    (stack : List Word) :
    ∃ μ', m.flow (names.map .pop) (.falling ⟨μ, names.map (m.word ν) ++ stack⟩) = .falling ⟨μ', stack⟩ ∧
      (∀ name ∈ names, m.word μ' name = m.word ν name) ∧
      ∀ a, (∀ name ∈ names, m.place name ≠ some a) → μ' a = μ a := by
  induction names generalizing μ with
  | nil => exact ⟨μ, rfl, by simp, fun _ _ => rfl⟩
  | cons name names ih =>
    obtain ⟨a, ha⟩ := Option.isSome_iff_exists.mp (h name (by simp))
    obtain ⟨μ', hflow, hnames, hrest⟩ := ih (fun n hn => h n (by simp [hn]))
      (Function.update μ a (m.word ν name))
    refine ⟨μ', ?_, ?_, fun b hb => ?_⟩
    · have hpass : m.pass (.falling ⟨μ, (name :: names).map (m.word ν) ++ stack⟩) (.pop name) =
          .falling ⟨Function.update μ a (m.word ν name), names.map (m.word ν) ++ stack⟩ := by
        simp [pass, act, write, ha]
      rw [List.map_cons, flow_cons, hpass, hflow]
    · intro n hn
      rcases List.mem_cons.mp hn with rfl | hn
      · -- The place may be written again, but only with the same value.
        by_cases hagain : ∃ n' ∈ names, m.place n' = some a
        · obtain ⟨n', hn', ha'⟩ := hagain
          have hsame := hnames n' hn'
          rw [word_of_place ha', word_of_place ha'] at hsame
          rw [word_of_place ha, word_of_place ha, hsame]
        · rw [word_of_place ha, hrest a fun n' hn' ha' => hagain ⟨n', hn', ha'⟩, Function.update_self]
      · exact hnames n hn
    · rw [hrest b fun n hn => hb n (by simp [hn]), Function.update_of_ne]
      rintro rfl
      exact hb name (by simp) ha

end Machine

/-! ## Names of variables -/

/-- A name of a table that code can use: that of a word, or of a register of the pool. -/
def Table.Variable (t : Table) (name : String) : Prop :=
  ∃ x ∈ t.slots, x.asmName = name ∧ (x.kind ≠ .struct ∨ isRegisterName name = true)

/-- A machine on which every such name is a variable of its own. -/
structure Machine.Separates (m : Machine) (t : Table) : Prop where
  placed : ∀ name, t.Variable name → (m.place name).isSome = true
  apart : ∀ name name', t.Variable name → t.Variable name' → m.place name = m.place name' → name = name'

/-- The words of a table that is laid out are variables of their own where the machine has them, if no
struct is called like a register. -/
theorem Table.LaidOut.separates {m : Machine} {t : Table} (h : t.LaidOut) (hm : m.Has t)
    (hwords : ∀ r ∈ t.registers, r.kind ≠ .struct) : m.Separates t := by
  have hword {name : String} (hname : t.Variable name) :
      ∃ x ∈ t.slots, x.asmName = name ∧ x.kind ≠ .struct ∧ m.place name = x.address := by
    obtain ⟨x, hx, rfl, hk⟩ := hname
    have hk : x.kind ≠ .struct := hk.elim id fun hregister => hwords x (List.mem_filter.mpr ⟨hx, hregister⟩)
    exact ⟨x, hx, rfl, hk, hm x hx hk⟩
  constructor
  · intro name hname
    obtain ⟨x, hx, -, -, hplace⟩ := hword hname
    obtain ⟨a, ha⟩ := h.exists_address hx
    rw [hplace, ha]
    rfl
  · intro name name' hname hname' hsame
    obtain ⟨x, hx, rfl, hk, hplace⟩ := hword hname
    obtain ⟨y, hy, rfl, hk', hplace'⟩ := hword hname'
    rw [h.eq_of_address hx hy hk hk' (hplace.symm.trans (hsame.trans hplace'))]

/-! ## Registers in use -/

namespace Pool

variable {x slot : Slot} {p q : Pool}

theorem mem_inUse_allocate? (h : p.allocate? = some (slot, q)) :
    x ∈ q.inUse ↔ x ∈ p.inUse ∨ x = slot := by
  obtain ⟨front, r, rest, hp, hr, rfl, hq⟩ := allocate?_eq_some h
  simp only [inUse, hp, hq, List.filter_append, List.filter_cons, hr, List.map_append, List.mem_append,
    if_true, Bool.false_eq_true, if_false, List.map_cons, List.mem_cons]
  tauto

theorem mem_slots_of_mem_inUse (h : x ∈ p.inUse) : x ∈ p.slots := by
  obtain ⟨r, hr, rfl⟩ := List.mem_map.mp h
  exact List.mem_map_of_mem (List.mem_filter.mp hr).1

theorem asmName_ne_of_allocate? (hd : (p.slots.map Slot.asmName).Nodup)
    (h : p.allocate? = some (slot, q)) (hx : x ∈ p.inUse) : x.asmName ≠ slot.asmName := by
  obtain ⟨front, r, rest, hp, hr, rfl, -⟩ := allocate?_eq_some h
  obtain ⟨r', hr', rfl⟩ := List.mem_map.mp hx
  obtain ⟨hmem, hbusy⟩ := List.mem_filter.mp hr'
  intro heq
  have hsame : r' = r := by
    refine List.inj_on_of_nodup_map (f := fun r => r.slot.asmName) ?_ hmem (by simp [hp]) heq
    simpa [slots, Function.comp_def] using hd
  simp [hsame, hr] at hbusy

end Pool

/-! ## Calls -/

namespace Lower

variable {options : Options} {defined : List (Place × Definition)} {session : Session} {m : Machine}
  {f : Frame} {s t u : Scope} {v : Lowered} {x : Slot}

theorem mem_registers_of_mem_slots (hu : u.ground = (Scope.start session).ground)
    (hx : x ∈ u.pool.slots) : x ∈ session.table.registers := by
  have hx : x ∈ u.ground.registers := hx
  rwa [hu, Scope.registers_start] at hx

theorem variable_of_mem_slots (hu : u.ground = (Scope.start session).ground) (hx : x ∈ u.pool.slots) :
    session.table.Variable x.asmName := by
  obtain ⟨hmem, hname⟩ := List.mem_filter.mp (mem_registers_of_mem_slots hu hx)
  exact ⟨x, hmem, rfl, .inr hname⟩

theorem variable_of_target (hu : (Scope.start session).ground.Tracks u) (hx : x ∈ u.reuse.target?) :
    session.table.Variable x.asmName := by
  obtain ⟨⟨y, hy, hname, hkind, -⟩, hk⟩ := hu.target x hx
  obtain ⟨z, hz, rfl⟩ := List.mem_map.mp hy
  exact ⟨z, hz, hname, .inl fun hzk => hk (hkind.symm.trans hzk)⟩

theorem target_of_taken (hx : x ∈ u.reuse.taken?.toList) : x ∈ u.reuse.target? := by
  revert hx
  cases u.reuse <;> simp [Reuse.taken?, Reuse.target?, eq_comm]

theorem variable_of_live (hu : (Scope.start session).ground.Tracks u) {name : String}
    (hname : name ∈ u.liveValues.map Slot.asmName) : session.table.Variable name := by
  obtain ⟨x, hx, rfl⟩ := List.mem_map.mp hname
  rcases List.mem_append.mp hx with hx | hx
  · exact variable_of_target hu (target_of_taken hx)
  · exact variable_of_mem_slots hu.ground (Pool.mem_slots_of_mem_inUse hx)

/-- A place that is handed out can be named, and is none of those that are live. It is in use from then
on if it is a register. -/
theorem allocate_apart (h : session.Reached options defined)
    (hu : (Scope.start session).ground.Tracks u)
    (htarget : ∀ y ∈ u.reuse.target?, isRegisterName y.asmName = false) (hx : Gives allocate f u x t) :
    session.table.Variable x.asmName ∧ (∀ y ∈ u.liveValues, y.asmName ≠ x.asmName) ∧
      ∀ r, r ∈ t.pool.inUse ↔ r ∈ u.pool.inUse ∨ r ∈ u.pool.slots ∧ r.asmName = x.asmName := by
  have hname {r : Slot} (hr : r ∈ u.pool.slots) : isRegisterName r.asmName = true :=
    (List.mem_filter.mp (mem_registers_of_mem_slots hu.ground hr)).2
  rcases allocate_cases hx with ⟨hreserved, rfl⟩ | ⟨-, pool, hpool, rfl⟩
  · have hx : x ∈ u.reuse.target? := by simp [hreserved, Reuse.target?]
    -- The target is not live before, and not called like a register.
    have hother {r : Slot} (hr : r ∈ u.pool.slots) : r.asmName ≠ x.asmName := by
      intro heq
      have hregister := hname hr
      simp [heq, htarget x hx] at hregister
    refine ⟨variable_of_target hu hx, fun y hy => ?_, fun r => ?_⟩
    · rcases List.mem_append.mp hy with hy | hy
      · simp [hreserved, Reuse.taken?] at hy
      · exact hother (Pool.mem_slots_of_mem_inUse hy)
    · exact ⟨.inl, fun hr => hr.elim id fun hr => absurd hr.2 (hother hr.1)⟩
  · have hmem := Pool.mem_slots_of_allocate? hpool
    have hnames : (u.pool.slots.map Slot.asmName).Nodup := by
      have hslots : u.pool.slots = session.table.registers := by
        rw [← Scope.registers_start, ← hu.ground]
        rfl
      rw [hslots]
      exact (List.filter_sublist.map _).nodup h.ready.names
    refine ⟨variable_of_mem_slots hu.ground hmem, fun y hy => ?_, fun r => ?_⟩
    · rcases List.mem_append.mp hy with hy | hy
      · intro heq
        have hregister := hname hmem
        simp [← heq, htarget y (target_of_taken hy)] at hregister
      · exact Pool.asmName_ne_of_allocate? hnames hpool hy
    · rw [Pool.mem_inUse_allocate? hpool]
      refine or_congr_right ⟨?_, fun hr => List.inj_on_of_nodup_map hnames hr.1 hmem hr.2⟩
      rintro rfl
      exact ⟨hmem, rfl⟩

/-- Around a call, live values are saved and restored, whatever the call does to the memory, and its
result comes to where it is moved. -/
theorem flow_call {live : List String} {target : String} {moved : Code} {returned : Store}
    (hplaces : ∀ name ∈ live, (m.place name).isSome = true)
    (hcallee : ∀ st, (m.callee target st).stack = st.stack) {μ : Memory} {stack : List Word}
    (hreturned : returned = m.callee target ⟨μ, live.map (m.word μ) ++ stack⟩) {ρ : Memory}
    (hmoved : m.Runs moved returned.memory ρ) :
    ∃ μ', m.flow (live.reverse.map .push ++ [.call target] ++ moved ++ live.map .pop)
        (.falling ⟨μ, stack⟩) = .falling ⟨μ', stack⟩ ∧
      (∀ name ∈ live, m.word μ' name = m.word μ name) ∧
      ∀ a, (∀ name ∈ live, m.place name ≠ some a) → μ' a = ρ a := by
  obtain ⟨μ', hpop, hnames, hrest⟩ := Machine.flow_pop hplaces ρ μ stack
  refine ⟨μ', ?_, hnames, hrest⟩
  have hreversed : ∀ name ∈ live.reverse, (m.place name).isSome = true := fun name hname =>
    hplaces name (List.mem_reverse.mp hname)
  have hpush := Machine.flow_push hreversed μ stack
  have hcall : m.pass (.falling ⟨μ, live.map (m.word μ) ++ stack⟩) (.call target) =
      .falling ⟨returned.memory, live.map (m.word μ) ++ stack⟩ := by
    have hstack : returned.stack = live.map (m.word μ) ++ stack := hreturned ▸ hcallee _
    rw [Machine.pass, Machine.act, ← hreturned, ← hstack]
  rw [List.reverse_reverse] at hpush
  rw [Machine.flow_append, Machine.flow_append, Machine.flow_append, hpush, Machine.flow_cons,
    Machine.flow_nil, hcall, hmoved, hpop]

end Lower

open Lower in
/-- A call keeps what is live when its arguments have been stored. From every store before the pushes,
the code runs to its end with the same stack and with all live values as they were, if the function
gives the stack back as it has found it. A result is at a place that is not live, and is what the
function has left in the first register. The registers in use are those from before, and that of the
result if it is one. -/
theorem Session.Reached.call_keeps_live {options : Options} {defined : List (Place × Definition)}
    {session : Session} (hsession : session.Reached options defined) {m : Machine}
    (hm : m.Separates session.table) {name : String}
    (hcallee : ∀ st, (m.callee (Assembly.entry name) st).stack = st.stack) {s t : Scope}
    (hs : (Scope.start session).ground.Tracks s)
    (htarget : ∀ x ∈ s.reuse.target?, isRegisterName x.asmName = false) {f : Frame} {args : List Expr}
    {line : Line} {v : Lowered} (h : Gives (Expr.call name args line).lower f s v t) :
    ∃ sig passed u, s.session.signature? name = some sig ∧
      Gives (passArguments (Expr.argValues args) sig.arguments) f s passed u ∧ passed <+: v.code ∧
      (sig.returnType ≠ .void → ∀ x ∈ u.liveValues, x.asmName ≠ v.slot.asmName) ∧
      (∀ r, r ∈ t.pool.inUse ↔ r ∈ u.pool.inUse ∨ r ∈ u.pool.slots ∧ r.asmName = v.slot.asmName) ∧
      ∀ μ stack, ∃ returned μ', returned = m.callee (Assembly.entry name)
          ⟨μ, u.liveValues.map (fun x => m.word μ x.asmName) ++ stack⟩ ∧
        m.Steps v.code (.at passed.length ⟨μ, stack⟩) (.at v.code.length ⟨μ', stack⟩) ∧
        (∀ x ∈ u.liveValues, ∃ a, m.place x.asmName = some a ∧ μ' a = μ a) ∧
        (sig.returnType ≠ .void → ∃ a b, m.place v.slot.asmName = some a ∧ m.place "r0" = some b ∧
          μ' a = returned.memory b) := by
  obtain ⟨sig, passed, u, result, hsig, hlength, hpassed, hresult, hslot, hcode⟩ := lowerCall_gives h
  have hg := Leave.fair_all hsession.fair
  have hargs := Expr.tallied_argValues hg args Expr.passes_all
  obtain ⟨⟨hu, -⟩, -⟩ := pens_passArguments hg hargs hlength (fun _ _ _ _ _ => trivial) s.session.jumps trivial
    (Leave.tracks_all hs) rfl hpassed
  have := orderly_passArguments (Expr.orderly_argValues args) sig.arguments
  have hnames := (leads_of_gives hpassed).target (fun _ ht => ht.2.2.2) htarget
  have hplaces : ∀ name ∈ u.liveValues.map Slot.asmName, (m.place name).isSome = true := fun name hname =>
    hm.placed name (variable_of_live hu hname)
  -- The run after the arguments, for any code that fetches the result.
  have hruns (ρ μ : Memory) (stack : List Word) (hmoves : ∀ instr ∈ result.code, instr.falls = true)
      (hmoved : m.Runs result.code (m.callee (Assembly.entry name)
        ⟨μ, u.liveValues.map (fun x => m.word μ x.asmName) ++ stack⟩).memory ρ) :
      ∃ μ', m.Steps v.code (.at passed.length ⟨μ, stack⟩) (.at v.code.length ⟨μ', stack⟩) ∧
        (∀ x ∈ u.liveValues, ∃ a, m.place x.asmName = some a ∧ μ' a = μ a) ∧
        ∀ a, (∀ x ∈ u.liveValues, m.place x.asmName ≠ some a) → μ' a = ρ a := by
    have hlive : u.liveValues.map (fun x => m.word μ x.asmName) =
        (u.liveValues.map Slot.asmName).map (m.word μ) := by rw [List.map_map]; rfl
    rw [hlive] at hmoved
    obtain ⟨μ', hflow, hkept, hrest⟩ := flow_call hplaces hcallee rfl hmoved
    have hsteps := Machine.steps_of_flow passed _ [] (fun instr hinstr => ?_) hflow
    · rw [List.append_nil, ← hcode, ← List.length_append, ← hcode] at hsteps
      refine ⟨μ', hsteps, fun x hx => ?_, fun a ha => hrest a fun name hname => ?_⟩
      · obtain ⟨a, ha⟩ := Option.isSome_iff_exists.mp (hplaces x.asmName (List.mem_map_of_mem hx))
        have hsame := hkept x.asmName (List.mem_map_of_mem hx)
        rw [Machine.word_of_place ha, Machine.word_of_place ha] at hsame
        exact ⟨a, ha, hsame⟩
      · obtain ⟨x, hx, rfl⟩ := List.mem_map.mp hname
        exact ha x hx
    · simp only [List.mem_append, List.mem_map, List.mem_singleton] at hinstr
      rcases hinstr with ((⟨_, -, rfl⟩ | rfl) | hinstr) | ⟨_, -, rfl⟩
      · rfl
      · rfl
      · exact hmoves instr hinstr
      · rfl
  refine ⟨sig, passed, u, hsig, hpassed, ⟨_, hcode.symm⟩, ?_⟩
  rw [hslot]
  rcases fetchResult_gives hresult with ⟨hvoid, rfl, rfl⟩ | ⟨-, x, hx, hname, hmove⟩
  · refine ⟨fun hne => absurd hvoid hne, fun r => ⟨.inl, fun hr => hr.elim id fun hr => ?_⟩,
      fun μ stack => ?_⟩
    · have hregister := (List.mem_filter.mp (mem_registers_of_mem_slots hu.ground hr.1)).2
      simp [hr.2, Slot.void, isRegisterName] at hregister
    · obtain ⟨μ', hsteps, hkept, -⟩ := hruns _ μ stack (by simp) .nil
      exact ⟨_, μ', rfl, hsteps, hkept, fun hne => absurd hvoid hne⟩
  · obtain ⟨hvariable, hapart, hinUse⟩ := allocate_apart hsession hu hnames hx
    rw [hname]
    refine ⟨fun _ => hapart, hinUse, fun μ stack => ?_⟩
    obtain ⟨y, hy, hyname, hyk⟩ := hg.result
    obtain ⟨z, hz, rfl⟩ := List.mem_map.mp hy
    obtain ⟨a, ha⟩ := Option.isSome_iff_exists.mp (hm.placed _ hvariable)
    obtain ⟨b, hb⟩ := Option.isSome_iff_exists.mp (hm.placed "r0" ⟨z, hz, hyname, .inl hyk⟩)
    have hfalls : ∀ instr ∈ result.code, instr.falls = true := by
      rw [hmove]
      simp [Instr.move, Instr.falls, Instr.isStraight]
    obtain ⟨μ', hsteps, hkept, hrest⟩ := hruns _ μ stack hfalls (hmove ▸ Machine.runs_move ha hb)
    refine ⟨_, μ', rfl, hsteps, hkept, fun _ => ⟨a, b, ha, hb, ?_⟩⟩
    rw [hrest a fun w hw hplace => ?_, Function.update_self]
    have hlive := variable_of_live hu (List.mem_map_of_mem hw)
    exact hapart w hw (hm.apart _ _ hlive hvariable (hplace.trans ha.symm))

/-- A program with words `x` and `y`, and a function of one word. -/
def callingProgram : Program where
  main := [.declaration [.keyword "long" 1, .ident "x" 1, .comma 1, .ident "y" 1]]
  functions := [{ name := "f", returnType := .long, arguments := [.keyword "long" 2, .ident "p" 2], line := 2 }]

open Lower in
/-- While `x` has been handed out as target and the first register is in use, `f(y)` sets all words to 99.
Both values are back afterwards, and the result is in the second register. -/
theorem callingProgram_keeps : ∃ (m : Machine) (s t : Scope) (v : Lowered) (μ μ' : Memory),
    (∀ target st a, (m.callee target st).memory a = 99) ∧ s.liveValues.map Slot.asmName = ["x", "r0"] ∧
      Gives (Expr.call "f" [.var "y" 1] 1).lower { line := 1 } s v t ∧
      v.code = [.move "f_p" "y", .push "r0", .push "x", .call "__fn_f", .move "r1" "r0", .pop "x",
        .pop "r0"] ∧
      m.place "r0" = some 0 ∧ m.place "r1" = some 1 ∧ m.place "x" = some 3 ∧
      m.Steps v.code (.at 1 ⟨μ, []⟩) (.at 7 ⟨μ', []⟩) ∧
      μ 0 = 10 ∧ μ 3 = 30 ∧ μ' 0 = 10 ∧ μ' 3 = 30 ∧ μ' 1 = 99 ∧
      t.pool.inUse.map Slot.asmName = ["r0", "r1"] := by
  let taken (session : Session) (x : Slot) : Scope :=
    { Scope.start session with
      pool := ⟨session.table.registers.map fun r => ⟨r, r.asmName = "r0"⟩⟩, reuse := .taken x }
  let call : Lower Lowered := (Expr.call "f" [.var "y" 1] 1).lower
  let pass : Lower Code := passArguments (Expr.argValues [.var "y" 1]) ["f_p"]
  have hfound : (callingProgram.layout? {}).any fun session =>
      (session.signature? "f" = some { name := "f", returnType := .long, arguments := ["f_p"] } &&
      session.table.registers.all (·.kind ≠ .struct) &&
      ((session.table.machine .unsigned).place "r0" = some 0 &&
        (session.table.machine .unsigned).place "r1" = some 1 &&
        (session.table.machine .unsigned).place "x" = some 3)) &&
      session.table.slots.any fun x => (x.asmName = "x" && x.kind = .long) &&
        ((taken session x).liveValues.map Slot.asmName = ["x", "r0"] &&
        (outcome pass { line := 1 } (taken session x)).1.toOption = some [.move "f_p" "y"] &&
        (outcome pass { line := 1 } (taken session x)).2.liveValues.map Slot.asmName = ["x", "r0"] &&
        ((outcome call { line := 1 } (taken session x)).1.toOption.any fun v => v.slot.asmName = "r1" &&
          v.code = [.move "f_p" "y", .push "r0", .push "x", .call "__fn_f", .move "r1" "r0", .pop "x",
            .pop "r0"]) &&
        (outcome call { line := 1 } (taken session x)).2.pool.inUse.map Slot.asmName = ["r0", "r1"]) := by
    decide +kernel
  obtain ⟨session, hlayout, hfound⟩ := (Option.any_eq_true _ _).mp hfound
  simp only [Bool.and_eq_true, List.any_eq_true, List.all_eq_true, Option.any_eq_true,
    decide_eq_true_eq] at hfound
  obtain ⟨⟨⟨hsig, hwords⟩, ⟨hr0, hr1⟩, hplace⟩, x, hx, ⟨hname, hkind⟩, ⟨⟨⟨hlive, hpass⟩, hpassLive⟩,
    v, hv, hresult, hcode⟩, hinUse⟩ := hfound
  have hreached := Program.reached_of_layout? hlayout
  have hlaid := hreached.fronted.table.layout
  let m : Machine := { session.table.machine .unsigned with
    callee := fun _ st => ⟨fun _ => 99, st.stack⟩ }
  have hm : m.Separates session.table :=
    hlaid.separates (Table.has_machine hlaid.names .unsigned) hwords
  have hground : (taken session x).ground = (Scope.start session).ground := by
    simp [taken, Scope.ground, Scope.start, Pool.slots, Pool.ofSlots, Function.comp_def]
  have hs : (Scope.start session).ground.Tracks (taken session x) := by
    refine ⟨hground, ?_, fun _ _ => ?_⟩
    · rintro target ⟨⟩
      exact ⟨⟨x.unmarked, List.mem_map_of_mem hx, rfl, rfl, rfl⟩, by simp [hkind]⟩
    · exact Code.straight_nil
  have hv := gives_of_toOption hv
  have htarget : ∀ target ∈ (taken session x).reuse.target?, isRegisterName target.asmName = false := by
    rintro target ⟨⟩
    rw [hname]
    decide
  obtain ⟨sig, passed, u, hsig', hpassed, -, hapart, -, hruns⟩ :=
    hreached.call_keeps_live hm (fun _ => rfl) hs htarget hv
  obtain rfl := Option.some.inj (hsig'.symm.trans hsig)
  have hpassed : outcome pass { line := 1 } (taken session x) = (.ok passed, u) := hpassed
  rw [hpassed] at hpass hpassLive
  obtain rfl : passed = [.move "f_p" "y"] := Option.some.inj hpass
  let μ : Memory := fun a => if a = 0 then 10 else 30
  obtain ⟨returned, μ', rfl, hsteps, hkept, hresulting⟩ := hruns μ []
  have hkept {name : String} {a : Nat} (hmem : name ∈ ["x", "r0"]) (ha : m.place name = some a) :
      μ' a = μ a := by
    rw [← show u.liveValues.map Slot.asmName = _ from hpassLive] at hmem
    obtain ⟨y, hy, rfl⟩ := List.mem_map.mp hmem
    obtain ⟨b, hb, hsame⟩ := hkept y hy
    obtain rfl := Option.some.inj (hb.symm.trans ha)
    exact hsame
  obtain ⟨a, b, ha, -, hword⟩ := hresulting (by simp)
  rw [hresult] at ha
  obtain rfl : 1 = a := Option.some.inj (hr1.symm.trans ha)
  have hlength : v.code.length = 7 := by rw [hcode]; rfl
  rw [hlength] at hsteps
  exact ⟨m, taken session x, _, v, μ, μ', fun _ _ _ => rfl, hlive, hv, hcode, hr0, hr1, hplace, hsteps, rfl,
    rfl, hkept (by simp) hr0, hkept (by simp) hplace, hword, hinUse⟩

end Flatword
