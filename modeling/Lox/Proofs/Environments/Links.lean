import Lox.Proofs.Actions

/-!
# The links of frames

An environment is a chain of frames, and every frame is made inside of an environment, which is
around it from then on. So a running machine comes with a table that tells, for every frame there
is, the environment around it. The chains are held by the machine itself, by functions and by
classes, and all of them go along the one table.

Nothing ever changes an entry. A new frame adds one at the end, and the chain of the new frame goes
along the longer table, just as all others do.
-/

namespace Lox

/-! ## Chains along a table -/

/-- A chain of frames goes along a table: the environment around each frame is what follows it in
the chain. -/
def Along (links : List Environment) : Environment → Prop
  | [] => True
  | frame :: outer => links[frame]? = some outer ∧ Along links outer

/-- All of some chains go along a table. -/
def AllAlong (links : List Environment) (envs : List Environment) : Prop :=
  ∀ env ∈ envs, Along links env

section Along

variable {links links' : List Environment} {env outer : Environment} {envs envs' : List Environment}

theorem Along.mono (h : Along links env) (hlinks : links <+: links') : Along links' env := by
  induction env with
  | nil => trivial
  | cons frame outer ih =>
    obtain ⟨more, rfl⟩ := hlinks
    refine ⟨?_, ih h.2⟩
    have hlt : frame < links.length := (List.getElem?_eq_some_iff.mp h.1).1
    rw [List.getElem?_append_left hlt]
    exact h.1

/-- The last entry of a table is that of a frame just made. -/
theorem Along.push (h : Along links outer) :
    Along (links ++ [outer]) (links.length :: outer) :=
  ⟨by rw [List.getElem?_append_right (Nat.le_refl _), Nat.sub_self]; rfl,
    h.mono (List.prefix_append links [outer])⟩

theorem AllAlong.mono (h : AllAlong links envs) (hlinks : links <+: links') :
    AllAlong links' envs := fun env henv ↦ (h env henv).mono hlinks

theorem AllAlong.nil : AllAlong links [] := fun _ h ↦ by cases h

theorem AllAlong.singleton (h : Along links env) : AllAlong links [env] := by
  intro env' henv'
  rwa [List.mem_singleton.mp henv']

theorem allAlong_cons : AllAlong links (env :: envs) ↔ Along links env ∧ AllAlong links envs :=
  List.forall_mem_cons

theorem allAlong_append :
    AllAlong links (envs ++ envs') ↔ AllAlong links envs ∧ AllAlong links envs' :=
  List.forall_mem_append

end Along

/-! ## The chains that values hold -/

/-- The environments of the methods of a class and of all classes above it. -/
def Class.environments : Class → List Environment
  | ⟨_, _, none, _, environment⟩ => [environment]
  | ⟨_, _, some c, _, environment⟩ => environment :: c.environments

/-- The environments that a value holds. -/
def Value.environments : Value → List Environment
  | .function f => [f.environment]
  | .class c => c.environments
  | .instance i => i.class.environments
  | .nil | .bool _ | .number _ | .string _ | .native _ => []

/-- The environments that a value holds which leaves a function. -/
def Interrupt.environments : Interrupt → List Environment
  | .returning v => v.environments
  | .issue _ | .desync _ | .stuck | .exhausted => []

theorem Class.mem_environments {c : Class} {name : String} {method : FunDecl × Environment}
    (h : c.findMethod? name = some method) : method.2 ∈ c.environments := by
  fun_induction Class.findMethod? c name with
  | case1 id className superclass methods environment name m hm =>
    cases h
    cases superclass <;> exact List.mem_cons_self
  | case2 => cases h
  | case3 id className methods environment name hm c ih => exact List.mem_cons_of_mem _ (ih h)

/-- No operator makes a value that holds environments. -/
theorem Value.environments_unary {operator : Token} {operand v : Value}
    (h : Value.unary operator operand = .ok v) : v.environments = [] := by
  rw [Value.unary.eq_def] at h
  split at h <;> cases h <;> rfl

theorem Value.environments_binary {operator : Token} {left right v : Value}
    (h : Value.binary operator left right = .ok v) : v.environments = [] := by
  rw [Value.binary.eq_def] at h
  split at h
  · cases h
    rfl
  · cases h
    rfl
  · split at h <;> cases h <;> rfl
  · split at h
    · split at h
      · rename_i x y w hw
        cases h
        rw [Value.arithmetic?.eq_def] at hw
        split at hw <;> cases hw <;> rfl
      · cases h
    · cases h

/-! ## Machines along a table -/

namespace Store

variable {links links' : List Environment} {s : Store Value}

/-- All values in a store hold environments along a table. -/
def Linked (links : List Environment) (s : Store Value) : Prop :=
  ∀ id x v, (s.record id).get? x = some v → AllAlong links v.environments

theorem Linked.empty (links : List Environment) : (empty : Store Value).Linked links := by
  intro id x v hv
  rw [record_of_le (Nat.zero_le id)] at hv
  cases hv

theorem Linked.mono (h : s.Linked links) (hlinks : links <+: links') : s.Linked links' :=
  fun id x v hv ↦ (h id x v hv).mono hlinks

/-- What is bound after a record has been added. -/
theorem get?_of_push {b : Bindings Value} {id : RecordId} {x : String} {v : Value}
    (h : ((s.push b).record id).get? x = some v) :
    b.get? x = some v ∨ (s.record id).get? x = some v := by
  rw [record_push] at h
  by_cases hid : id = s.next
  · rw [if_pos hid] at h
    exact .inl h
  · rw [if_neg hid] at h
    exact .inr h

/-- What is bound after a name has been bound to a value. -/
theorem get?_of_bind {id id' : RecordId} {x x' : String} {v w : Value}
    (h : ((s.bind id x v).record id').get? x' = some w) :
    w = v ∨ (s.record id').get? x' = some w := by
  by_cases hid : id < s.next
  · rw [get?_record_bind hid] at h
    by_cases hsame : id' = id ∧ x' = x
    · rw [if_pos hsame] at h
      exact .inl (Option.some.inj h).symm
    · rw [if_neg hsame] at h
      exact .inr h
  · have hne : id' ≠ id := by
      have hlt := lt_next_of_get? h
      rw [next_bind] at hlt
      exact fun heq ↦ hid (heq ▸ hlt)
    rw [record_bind_of_ne hne] at h
    exact .inr h

theorem Linked.push (h : s.Linked links) {b : Bindings Value}
    (hb : ∀ x v, b.get? x = some v → AllAlong links v.environments) : (s.push b).Linked links :=
  fun id x v hv ↦ (get?_of_push hv).elim (hb x v) (h id x v)

theorem Linked.bind (h : s.Linked links) (id : RecordId) (x : String) {v : Value}
    (hv : AllAlong links v.environments) : (s.bind id x v).Linked links := by
  intro other y w hw
  rcases get?_of_bind hw with rfl | hw
  · exact hv
  · exact h other y w hw

@[simp] theorem next_define (s : Store Value) (env : Environment) (x : String) (v : Value) :
    (s.define env x v).next = s.next := by
  cases env with
  | nil => rfl
  | cons frame outer => exact next_bind ..

theorem Linked.define (h : s.Linked links) (env : Environment) (x : String) {v : Value}
    (hv : AllAlong links v.environments) : (s.define env x v).Linked links := by
  cases env with
  | nil => exact h
  | cons frame outer => exact h.bind frame x hv

/-- What is found at a distance is bound there. -/
theorem get?_of_findAt {env : Environment} {d : Int} {x : String} {found : RecordId × Value}
    (h : s.findAt env d x = .ok found) : (s.record found.1).get? x = some found.2 := by
  rw [findAt] at h
  cases hancestor : env.ancestor d with
  | error e =>
    rw [hancestor] at h
    cases h
  | ok outer =>
    rw [hancestor] at h
    cases hfound : outer.head?.bind fun frame ↦ ((s.record frame).get? x).map (frame, ·) with
    | none =>
      simp only [Bind.bind, Except.bind, hfound] at h
      cases h
    | some r =>
      simp only [Bind.bind, Except.bind, hfound] at h
      cases h
      obtain ⟨frame, -, hframe⟩ := Option.bind_eq_some_iff.mp hfound
      obtain ⟨v, hv, rfl⟩ := Option.map_eq_some_iff.mp hframe
      exact hv

theorem exists_of_getAt {env : Environment} {d : Int} {x : String} {v : Value}
    (h : s.getAt env d x = .ok v) : ∃ id, (s.record id).get? x = some v := by
  rw [getAt] at h
  cases hfound : s.findAt env d x with
  | error e =>
    rw [hfound] at h
    cases h
  | ok found =>
    rw [hfound] at h
    cases h
    exact ⟨found.1, get?_of_findAt hfound⟩

theorem exists_of_get? {env : Environment} {x : String} {v : Value} (h : s.get? env x = some v) :
    ∃ id, (s.record id).get? x = some v := by
  obtain ⟨id, -, hv⟩ := Option.bind_eq_some_iff.mp h
  exact ⟨id, hv⟩

end Store

/-- A machine goes along a table: there is one entry for each frame, and all chains that the machine
holds go along the table. -/
structure Machine.Linked (links : List Environment) (M : Machine) : Prop where
  size : links.length = M.frames.next
  current : Along links M.current
  frames : M.frames.Linked links
  objects : M.objects.Linked links

/-- Binding names makes no frames. -/
theorem Machine.Linked.withFrames {links : List Environment} {M : Machine} (h : M.Linked links)
    {frames : Store Value} (hnext : frames.next = M.frames.next) (hframes : frames.Linked links) :
    ({ M with frames := frames } : Machine).Linked links :=
  ⟨h.size.trans hnext.symm, h.current, hframes, h.objects⟩

/-- A machine goes along a table that is an extension of an earlier one, and so does more. -/
def Machine.Extends (links : List Environment) (M : Machine) (P : List Environment → Prop) : Prop :=
  ∃ links', links <+: links' ∧ M.Linked links' ∧ P links'

theorem Machine.Extends.mono {links links' : List Environment} {M : Machine}
    {P P' : List Environment → Prop} (h : M.Extends links' P) (hlinks : links <+: links')
    (hP : ∀ {table}, P table → P' table) : M.Extends links P' := by
  obtain ⟨table, htable, hM, hholds⟩ := h
  exact ⟨table, hlinks.trans htable, hM, hP hholds⟩

theorem Machine.Linked.extends {links : List Environment} {M : Machine}
    {P : List Environment → Prop} (h : M.Linked links) (hP : P links) : M.Extends links P :=
  ⟨links, List.prefix_rfl, h, hP⟩

/-- There are two frames from the start, and no function or class holds them. -/
theorem Machine.linked_start : Machine.start.Linked [[], [Machine.builtinFrame]] := by
  refine ⟨rfl, ⟨rfl, rfl, trivial⟩, .push (.push (.empty _) fun x v hv ↦ ?_) ?_, .empty _⟩
  · obtain ⟨n, -, heq⟩ := List.mem_map.mp (Bindings.mem_of_get?_ofList hv)
    cases heq
    exact .nil
  · exact fun x v hv ↦ by cases hv

end Lox
