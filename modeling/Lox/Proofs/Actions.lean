import Lox.Machine
import Lox.Proofs.Outcome

/-!
# What the machine does with names

The actions that look for names, each as one equation about a machine: whether a name is found, and
what happens if it is not.
-/

namespace Lox

namespace Store

variable {α : Type} {s : Store α} {env rest : Environment} {id : RecordId} {d : Nat} {x : String}
  {a b : α}

theorem ancestor_of_drop (henv : env.drop d = id :: rest) :
    Environment.ancestor env d = .ok (id :: rest) := by
  rw [Environment.ancestor, Int.toNat_natCast, henv]

/-- Access by distance where the chain is too short. -/
theorem findAt_of_nil {d : Int} (henv : env.drop d.toNat = []) :
    s.findAt env d x = .error (.noFrame d) := by
  rw [findAt, Environment.ancestor, henv]
  rfl

/-- Access by distance where there is a frame at the distance. -/
theorem findAt_of_cons {d : Int} (henv : env.drop d.toNat = id :: rest) :
    s.findAt env d x = match (s.record id).get? x with
      | some a => .ok (id, a)
      | none => .error (.unbound x d) := by
  have hancestor : env.ancestor d = .ok (id :: rest) := by rw [Environment.ancestor, henv]
  rw [findAt, hancestor]
  cases hx : (s.record id).get? x <;>
    simp [Bind.bind, Except.bind, hx, Pure.pure, Except.pure, throw, throwThe, MonadExceptOf.throw]

theorem findAt_of_drop (henv : env.drop d = id :: rest) :
    s.findAt env d x = match (s.record id).get? x with
      | some a => .ok (id, a)
      | none => .error (.unbound x d) :=
  findAt_of_cons (by rwa [Int.toNat_natCast])

theorem getAt_of_drop (henv : env.drop d = id :: rest) (ha : (s.record id).get? x = some a) :
    s.getAt env d x = .ok a := by
  rw [getAt, findAt_of_drop henv, ha]
  rfl

theorem assignAt_of_drop (henv : env.drop d = id :: rest) (ha : (s.record id).get? x = some a) :
    s.assignAt env d x b = .ok (s.bind id x b) := by
  rw [assignAt, findAt_of_drop henv, ha]
  rfl

theorem assignAt_of_unbound (henv : env.drop d = id :: rest) (ha : (s.record id).get? x = none) :
    s.assignAt env d x b = .error (.unbound x d) := by
  rw [assignAt, findAt_of_drop henv, ha]
  rfl

/-- A record that is pushed and then changed. -/
theorem bind_push (s : Store α) (b : Bindings α) (x : String) (a : α) :
    (s.push b).bind s.next x a = s.push (b.insert x a) := by
  obtain ⟨records⟩ := s
  simp only [push, bind, next]
  congr 1
  apply Array.ext
  · simp
  · intro i hi hi'
    rw [Array.getElem_modify, Array.getElem_push, Array.getElem_push]
    split <;> split <;> simp_all <;> omega

/-- Where the frame of a name is in the chain of the globals. -/
theorem frameOf?_globals (s : Store α) (x : String) : s.frameOf? Machine.globals x
      = if (s.record Machine.globalFrame).contains x then some Machine.globalFrame
        else if (s.record Machine.builtinFrame).contains x then some Machine.builtinFrame
        else none := by
  rw [frameOf?, Machine.globals, List.find?_cons, List.find?_cons, List.find?_nil]
  cases (s.record Machine.globalFrame).contains x <;>
    cases (s.record Machine.builtinFrame).contains x <;> rfl

theorem get?_globals (s : Store α) (x : String) : s.get? Machine.globals x
      = ((s.record Machine.globalFrame).get? x).or ((s.record Machine.builtinFrame).get? x) := by
  rw [get?, frameOf?_globals, Bindings.contains, Bindings.contains]
  cases hglobal : (s.record Machine.globalFrame).get? x with
  | some a => exact hglobal
  | none =>
    cases hbuiltin : (s.record Machine.builtinFrame).get? x with
    | some a => exact hbuiltin
    | none => rfl

end Store

namespace Eval

variable {M : Machine} {r : Reference} {d : Nat}

theorem getAt_run (M : Machine) (d : Int) (x : String) :
    getAt d x M = match M.frames.getAt M.current d x with
      | .ok v => .ok v M
      | .error e => .error (.desync e) M := by
  change ofExcept Interrupt.desync (M.frames.getAt M.current d x) M = _
  cases M.frames.getAt M.current d x <;> rfl

theorem lookup_of_distance (h : r.distance = some d) : lookup r = getAt d r.name.lexeme := by
  rw [lookup, h]

theorem lookup_of_global (h : r.distance = none) :
    lookup r M = match M.frames.get? Machine.globals r.name.lexeme with
      | some v => .ok v M
      | none => .error (.issue (.atToken r.name (.undefinedVariable r.name.lexeme))) M := by
  rw [lookup, h]
  change (match M.frames.get? Machine.globals r.name.lexeme with
    | some v => Pure.pure v
    | none => fail r.name (.undefinedVariable r.name.lexeme) : Eval Value) M = _
  cases M.frames.get? Machine.globals r.name.lexeme <;> rfl

theorem assign_of_distance (h : r.distance = some d) (v : Value) :
    assign r v M = match M.frames.findAt M.current d r.name.lexeme with
      | .ok (frame, _) => .ok () { M with frames := M.frames.bind frame r.name.lexeme v }
      | .error e => .error (.desync e) M := by
  rw [assign, frameOf, h]
  change ((do
    let frame ← (return (← ofExcept Interrupt.desync
      (M.frames.findAt M.current d r.name.lexeme)).1 : Eval RecordId)
    modify fun m ↦ { m with frames := m.frames.bind frame r.name.lexeme v }) : Eval Unit) M = _
  cases M.frames.findAt M.current d r.name.lexeme <;> rfl

theorem assign_of_global (h : r.distance = none) (v : Value) :
    assign r v M = match M.frames.frameOf? Machine.globals r.name.lexeme with
      | some frame => .ok () { M with frames := M.frames.bind frame r.name.lexeme v }
      | none => .error (.issue (.atToken r.name (.undefinedVariable r.name.lexeme))) M := by
  rw [assign, frameOf, h]
  change ((do
    let frame ← (match M.frames.frameOf? Machine.globals r.name.lexeme with
      | some frame => Pure.pure frame
      | none => fail r.name (.undefinedVariable r.name.lexeme) : Eval RecordId)
    modify fun m ↦ { m with frames := m.frames.bind frame r.name.lexeme v }) : Eval Unit) M = _
  cases M.frames.frameOf? Machine.globals r.name.lexeme <;> rfl

theorem define_of_current {id : RecordId} {rest : Environment} (h : M.current = id :: rest)
    (x : String) (v : Value) : define x v M = .ok () { M with frames := M.frames.bind id x v } := by
  change EStateM.Result.ok () { M with frames := M.frames.define M.current x v } = _
  rw [Store.define.eq_def, h]

theorem step_run (host : Host) (M : Machine) : step host M = match host.maxSteps with
    | some limit =>
      if limit < ((M.steps + 1 : Nat) : Int) then
        .error (.issue (.anywhere (.stepLimit limit))) { M with steps := M.steps + 1 }
      else .ok () { M with steps := M.steps + 1 }
    | none => .ok () { M with steps := M.steps + 1 } := by
  rw [step]
  cases host.maxSteps with
  | none => rfl
  | some limit =>
    change (if limit < ((M.steps + 1 : Nat) : Int) then
      throw (.issue (.anywhere (.stepLimit limit))) else pure () : Eval Unit)
        { M with steps := M.steps + 1 } = _
    simp only []
    split <;> rfl

/-- A statement is counted, even if it is one too many. -/
theorem ends_step {host : Host} {ok : Unit → Machine → Prop} {failed : Interrupt → Machine → Prop}
    (hok : ok () { M with steps := M.steps + 1 })
    (hfailed : ∀ limit, failed (.issue (.anywhere (.stepLimit limit)))
      { M with steps := M.steps + 1 }) : Ends (step host) M ok failed := by
  rw [Ends, step_run]
  cases host.maxSteps with
  | none => exact hok
  | some limit =>
    dsimp only
    by_cases hlimit : limit < ((M.steps + 1 : Nat) : Int)
    · rw [if_pos hlimit]
      exact hfailed limit
    · rw [if_neg hlimit]
      exact hok

/-- Another environment is current only in between. -/
theorem ends_within {α : Type} {env : Environment} {p : Eval α} {ok : α → Machine → Prop}
    {failed : Interrupt → Machine → Prop}
    (h : Ends p { M with current := env } (fun a M' ↦ ok a { M' with current := M.current })
      fun i M' ↦ failed i { M' with current := M.current }) : Ends (within env p) M ok failed := by
  rw [Ends, within]
  cases hp : p { M with current := env } with
  | ok a M' => exact h.of_ok hp
  | error i M' => exact h.of_error hp

/-- What a body returns is the value of the call, and all other failures are passed on. -/
theorem ends_catchReturn {p : Eval Unit} {ok : Value → Machine → Prop}
    {failed : Interrupt → Machine → Prop} (h : Ends p M (fun _ M' ↦ ok .nil M') fun i M' ↦
      (∀ v, i = .returning v → ok v M') ∧ ((∀ v, i ≠ .returning v) → failed i M')) :
    Ends (catchReturn p) M ok failed := by
  rw [Ends, catchReturn]
  cases hp : p M with
  | ok _ M' => exact h.of_ok hp
  | error i M' =>
    have hfailed := h.of_error hp
    cases i with
    | returning v => exact hfailed.1 v rfl
    | _ => exact hfailed.2 fun _ h ↦ by cases h

/-- Declaring a class takes three steps. -/
theorem defineClass_eq (name : String) (superclass : Option Class) (methods : List FunDecl) :
    defineClass name superclass methods = (do
      let env ← get >>= fun M ↦
        newFrame M.current (.ofList (superclass.elim [] fun c ↦ [("super", .class c)]))
      let id ← newId
      define name (.class ⟨id, name, superclass,
        Bindings.ofList (methods.map fun m ↦ (m.name.lexeme, m)), env⟩)) := rfl

end Eval

end Lox
