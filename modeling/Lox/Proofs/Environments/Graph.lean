import Lox.Proofs.Actions

/-!
# Graphs of environments

Environments share frames: every environment but an outermost one is made inside of another, and any
number of them can be made inside of the same one. A graph keeps all environments that have been
made over one store, each under a number, and answers requests: for a new environment, for a
definition, for a search, for an ancestor, for access by distance. What a request finds wrong it
reports like the machine does, and a request that fails leaves its state behind as well, so that a
change made too early would be seen.

The one fact that carries the proofs is about the chains. The environment with a number has the
frame with that number in front, and what follows is the environment it was made in. So all
ancestors of an environment are environments of the graph, and no two of these share their innermost
frame.
-/

namespace Lox

variable {α : Type}

/-- The environments that have been made, each under its number, and the store of their frames. -/
structure Graph (α : Type) where
  frames : Store α
  environments : List Environment

namespace Graph

/-- What can be asked of a graph. Environments are named by their numbers. -/
inductive Request (α : Type) where
  /-- A new environment, inside of another one or outside of all. -/
  | new (outer : Option Nat)
  | define (n : Nat) (x : String) (a : α)
  | get (n : Nat) (name : Token)
  | assign (n : Nat) (name : Token) (a : α)
  | ancestor (n : Nat) (distance : Int)
  | getAt (n : Nat) (distance : Int) (x : String)
  | assignAt (n : Nat) (distance : Int) (x : String) (a : α)

/-- What a graph answers. -/
inductive Answer (α : Type) where
  | done
  | value (a : α)
  | environment (n : Nat)

/-- No environment has been made. -/
def empty : Graph α := ⟨.empty, []⟩

/-- The environment with a number. A number that none has stands for one without frames. -/
def environment (g : Graph α) (n : Nat) : Environment := g.environments[n]?.getD []

/-- The bindings of the innermost frame of an environment. -/
def own (g : Graph α) (n : Nat) : Bindings α := (g.environment n).head?.elim .empty g.frames.record

/-- What a search for a name has found, or else the issue that the name is to blame for. -/
def found {β : Type} (name : Token) : Option β → Except Issue β
  | some b => .ok b
  | none => .error (.atToken name (.undefinedVariable name.lexeme))

/-- Goes on with what was found, or stops. -/
def attempt {ε β : Type} (interrupt : ε → Interrupt) : Except ε β → EStateM Interrupt (Graph α) β
  | .ok b => return b
  | .error e => throw (interrupt e)

/-- Answers a request. -/
def perform : Request α → EStateM Interrupt (Graph α) (Answer α)
  | .new outer => modifyGet fun g ↦
      (.environment g.environments.length,
        ⟨g.frames.push .empty, g.environments ++ [g.frames.next :: outer.elim [] g.environment]⟩)
  | .define n x a => do
    modify fun g ↦ { g with frames := g.frames.define (g.environment n) x a }
    return .done
  | .get n name => do
    let g ← get
    return .value (← attempt .issue (found name (g.frames.get? (g.environment n) name.lexeme)))
  | .assign n name a => do
    let g ← get
    let frames ← attempt .issue (found name (g.frames.assign? (g.environment n) name.lexeme a))
    set { g with frames }
    return .done
  | .ancestor n distance => do
    let g ← get
    let outer ← attempt .desync ((g.environment n).ancestor distance)
    return .environment (g.environments.idxOf outer)
  | .getAt n distance x => do
    let g ← get
    return .value (← attempt .desync (g.frames.getAt (g.environment n) distance x))
  | .assignAt n distance x a => do
    let g ← get
    let frames ← attempt .desync (g.frames.assignAt (g.environment n) distance x a)
    set { g with frames }
    return .done

/-- The graph that a request leaves behind, whether it fails or not. -/
def next (g : Graph α) (request : Request α) : Graph α :=
  match perform request g with
  | .ok _ g' | .error _ g' => g'

/-- The graph that a row of requests leaves behind. -/
def after (g : Graph α) (requests : List (Request α)) : Graph α := requests.foldl next g

/-! ## What a request does -/

theorem perform_get (g : Graph α) (n : Nat) (name : Token) :
    perform (.get n name) g = match g.frames.get? (g.environment n) name.lexeme with
      | some a => .ok (.value a) g
      | none => .error (.issue (.atToken name (.undefinedVariable name.lexeme))) g := by
  change (do
    let a ← attempt .issue (found name (g.frames.get? (g.environment n) name.lexeme))
    return .value a : EStateM Interrupt (Graph α) (Answer α)) g = _
  cases g.frames.get? (g.environment n) name.lexeme <;> rfl

theorem perform_assign (g : Graph α) (n : Nat) (name : Token) (a : α) :
    perform (.assign n name a) g = match g.frames.assign? (g.environment n) name.lexeme a with
      | some frames => .ok .done { g with frames }
      | none => .error (.issue (.atToken name (.undefinedVariable name.lexeme))) g := by
  change (do
    let frames ← attempt .issue (found name (g.frames.assign? (g.environment n) name.lexeme a))
    set { g with frames }
    return .done : EStateM Interrupt (Graph α) (Answer α)) g = _
  cases g.frames.assign? (g.environment n) name.lexeme a <;> rfl

theorem perform_ancestor (g : Graph α) (n : Nat) (d : Int) :
    perform (.ancestor n d) g = match (g.environment n).ancestor d with
      | .ok outer => .ok (.environment (g.environments.idxOf outer)) g
      | .error e => .error (.desync e) g := by
  change (do
    let outer ← attempt .desync ((g.environment n).ancestor d)
    return .environment (g.environments.idxOf outer) :
      EStateM Interrupt (Graph α) (Answer α)) g = _
  cases (g.environment n).ancestor d <;> rfl

theorem perform_getAt (g : Graph α) (n : Nat) (d : Int) (x : String) :
    perform (.getAt n d x) g = match g.frames.getAt (g.environment n) d x with
      | .ok a => .ok (.value a) g
      | .error e => .error (.desync e) g := by
  change (do
    let a ← attempt .desync (g.frames.getAt (g.environment n) d x)
    return .value a : EStateM Interrupt (Graph α) (Answer α)) g = _
  cases g.frames.getAt (g.environment n) d x <;> rfl

theorem perform_assignAt (g : Graph α) (n : Nat) (d : Int) (x : String) (a : α) :
    perform (.assignAt n d x a) g = match g.frames.assignAt (g.environment n) d x a with
      | .ok frames => .ok .done { g with frames }
      | .error e => .error (.desync e) g := by
  change (do
    let frames ← attempt .desync (g.frames.assignAt (g.environment n) d x a)
    set { g with frames }
    return .done : EStateM Interrupt (Graph α) (Answer α)) g = _
  cases g.frames.assignAt (g.environment n) d x a <;> rfl

theorem lookup_eq_found {M : Machine} {r : Reference} (h : r.distance = none) :
    Eval.lookup r M = match found r.name (M.frames.get? Machine.globals r.name.lexeme) with
      | .ok v => .ok v M
      | .error issue => .error (.issue issue) M := by
  rw [Eval.lookup_of_global h]
  cases M.frames.get? Machine.globals r.name.lexeme <;> rfl

theorem assign_eq_found {M : Machine} {r : Reference} (h : r.distance = none) (v : Value) :
    Eval.assign r v M
      = match found r.name (M.frames.assign? Machine.globals r.name.lexeme v) with
        | .ok frames => .ok () { M with frames }
        | .error issue => .error (.issue issue) M := by
  rw [Eval.assign_of_global h, Store.assign?]
  cases M.frames.frameOf? Machine.globals r.name.lexeme <;> rfl

/-! ## The chains of a graph -/

/-- What is known of the chains: the environment with a number has the frame with that number in
front, and around it there is an environment of the graph or nothing. -/
structure WellFormed (g : Graph α) : Prop where
  length : g.environments.length = g.frames.next
  chained : ∀ n env, g.environments[n]? = some env → ∃ outer, env = n :: outer ∧
    (outer = [] ∨ ∃ n' : Nat, g.environments[n']? = some outer)

section WellFormed

variable {g g' : Graph α} {n m d : Nat} {env rest : Environment}

theorem environment_of_getElem? (h : g.environments[n]? = some env) : g.environment n = env := by
  rw [environment, h]
  rfl

theorem environment_eq_nil_or (g : Graph α) (n : Nat) :
    g.environment n = [] ∨ g.environments[n]? = some (g.environment n) := by
  rw [environment]
  cases g.environments[n]? with
  | none => exact .inl rfl
  | some env => exact .inr rfl

/-- New bindings change no chain. -/
theorem WellFormed.with_frames (h : g.WellFormed) {frames : Store α}
    (hnext : frames.next = g.frames.next) : WellFormed { g with frames } :=
  ⟨h.length.trans hnext.symm, h.chained⟩

theorem WellFormed.new (h : g.WellFormed) (outer : Option Nat) : WellFormed
    ⟨g.frames.push .empty, g.environments ++ [g.frames.next :: outer.elim [] g.environment]⟩ where
  length := by simp [h.length]
  chained n env henv := by
    have hkept : ∀ {n' : Nat} {env' : Environment}, g.environments[n']? = some env' →
        (g.environments ++ [g.frames.next :: outer.elim [] g.environment])[n']? = some env' :=
      fun h' ↦ by rwa [List.getElem?_append_left (List.getElem?_eq_some_iff.mp h').1]
    by_cases hn : n < g.environments.length
    · rw [List.getElem?_append_left hn] at henv
      obtain ⟨outer', rfl, houter⟩ := h.chained n env henv
      exact ⟨outer', rfl, houter.imp_right fun ⟨n', hn'⟩ ↦ ⟨n', hkept hn'⟩⟩
    · have hlast : n = g.environments.length ∧
          g.frames.next :: outer.elim [] g.environment = env := by
        rw [List.getElem?_append_right (Nat.le_of_not_lt hn), List.getElem?_singleton] at henv
        obtain ⟨hzero, henv⟩ := Option.ite_none_right_eq_some.mp henv
        exact ⟨Nat.le_antisymm (Nat.le_of_sub_eq_zero hzero) (Nat.le_of_not_lt hn),
          Option.some.inj henv⟩
      obtain ⟨rfl, rfl⟩ := hlast
      refine ⟨_, by rw [h.length], ?_⟩
      cases outer with
      | none => exact .inl rfl
      | some n' => exact (environment_eq_nil_or g n').imp_right fun h' ↦ ⟨n', hkept h'⟩

theorem next_define (s : Store α) (env : Environment) (x : String) (a : α) :
    (s.define env x a).next = s.next := by
  cases env with
  | nil => rfl
  | cons id rest => exact Store.next_bind s id x a

/-- What one request preserves. -/
theorem WellFormed.next (h : g.WellFormed) (request : Request α) : (g.next request).WellFormed := by
  rw [Graph.next]
  cases request with
  | new outer => exact h.new outer
  | define n x a => exact h.with_frames (next_define g.frames _ x a)
  | get n name => grind [perform_get]
  | assign n name a =>
    rw [perform_assign, Store.assign?]
    cases g.frames.frameOf? (g.environment n) name.lexeme with
    | none => exact h
    | some id => exact h.with_frames (Store.next_bind g.frames id name.lexeme a)
  | ancestor n d => grind [perform_ancestor]
  | getAt n d x => grind [perform_getAt]
  | assignAt n d x a =>
    rw [perform_assignAt, Store.assignAt]
    cases g.frames.findAt (g.environment n) d x with
    | error e => exact h
    | ok bound => exact h.with_frames (Store.next_bind g.frames bound.1 x a)

/-- What a row of requests preserves. -/
theorem WellFormed.after (h : g.WellFormed) (requests : List (Request α)) :
    (g.after requests).WellFormed := by
  induction requests generalizing g with
  | nil => exact h
  | cons request requests ih => exact ih (h.next request)

/-- What is left of a chain is the chain of the environment whose frame is in front. -/
theorem WellFormed.environment_of_drop (h : g.WellFormed)
    (hdrop : (g.environment n).drop d = m :: rest) : g.environments[m]? = some (m :: rest) := by
  induction d generalizing n with
  | zero =>
    rw [List.drop_zero] at hdrop
    obtain hnil | hn := environment_eq_nil_or g n
    · rw [hnil] at hdrop
      cases hdrop
    · obtain ⟨outer, houter, -⟩ := h.chained n _ hn
      obtain rfl : n = m := (List.cons.inj (houter.symm.trans hdrop)).1
      rwa [hdrop] at hn
  | succ d ih =>
    obtain hnil | hn := environment_eq_nil_or g n
    · rw [hnil] at hdrop
      cases hdrop
    · obtain ⟨outer, houter, hnil | ⟨n', hn'⟩⟩ := h.chained n _ hn
      · rw [houter, hnil] at hdrop
        cases d <;> cases hdrop
      · rw [houter, List.drop_succ_cons, ← environment_of_getElem? hn'] at hdrop
        exact ih hdrop

/-- A chain has the number of the frame in front. -/
theorem WellFormed.idxOf (h : g.WellFormed) (hm : g.environments[m]? = some (m :: rest)) :
    g.environments.idxOf (m :: rest) = m := by
  have hlt := List.idxOf_lt_length_of_mem (List.mem_of_getElem? hm)
  obtain ⟨outer, houter, -⟩ := h.chained _ _ (List.getElem?_eq_getElem hlt)
  rw [List.getElem_idxOf] at houter
  exact (List.cons.inj houter).1.symm

theorem WellFormed.own_eq (h : g.WellFormed) (n : Nat) : g.own n = g.frames.record n := by
  cases hn : g.environments[n]? with
  | none =>
    rw [own, environment, hn, Store.record_of_le (h.length ▸ List.getElem?_eq_none_iff.mp hn)]
    rfl
  | some env =>
    obtain ⟨outer, rfl, -⟩ := h.chained n env hn
    rw [own, environment_of_getElem? hn]
    rfl

end WellFormed

/-! ## Search and distance -/

/-- An environment is at a distance from another one. -/
def IsAncestor (g : Graph α) (n d m : Nat) : Prop :=
  perform (.ancestor n d) g = .ok (.environment m) g

/-- The innermost frame of an environment binds a name. -/
def Binds (g : Graph α) (m : Nat) (x : String) : Prop := ∃ a, (g.own m).get? x = some a

/-- The least distance at which an ancestor binds a name, and which ancestor that is. -/
structure Nearest (g : Graph α) (n : Nat) (x : String) (d m : Nat) : Prop where
  ancestor : g.IsAncestor n d m
  binds : g.Binds m x
  least : ∀ e < d, ∀ m', g.IsAncestor n e m' → ¬ g.Binds m' x

section Search

variable {g : Graph α} {n m d : Nat} {x : String} {a : α}

theorem WellFormed.isAncestor_iff (h : g.WellFormed) :
    g.IsAncestor n d m ↔ ∃ rest, (g.environment n).drop d = m :: rest := by
  rw [IsAncestor, perform_ancestor, Environment.ancestor, Int.toNat_natCast]
  cases hdrop : (g.environment n).drop d with
  | nil => simp
  | cons m' rest => simp [h.idxOf (h.environment_of_drop hdrop), eq_comm]

/-- A search comes to the nearest environment that binds the name. -/
theorem Nearest.frameOf? (hn : g.Nearest n x d m) (h : g.WellFormed) :
    g.frames.frameOf? (g.environment n) x = some m := by
  obtain ⟨rest, hdrop⟩ := h.isAncestor_iff.mp hn.ancestor
  obtain ⟨a, ha⟩ := hn.binds
  rw [h.own_eq] at ha
  have hd : d < (g.environment n).length := by
    refine Nat.lt_of_not_le fun hle ↦ ?_
    rw [List.drop_eq_nil_of_le hle] at hdrop
    cases hdrop
  rw [Store.frameOf?, List.find?_eq_some_iff_getElem]
  refine ⟨by rw [Bindings.contains, ha]; rfl, d, hd, ?_, fun e he ↦ ?_⟩
  · rw [List.drop_eq_getElem_cons hd] at hdrop
    exact (List.cons.inj hdrop).1
  · have hnearer := hn.least e he _
      (h.isAncestor_iff.mpr ⟨_, List.drop_eq_getElem_cons (Nat.lt_trans he hd)⟩)
    rw [Binds, h.own_eq] at hnearer
    rw [Bool.not_eq_true', Bindings.contains, Option.isSome_eq_false_iff, Option.isNone_iff_eq_none]
    exact Option.eq_none_iff_forall_ne_some.mpr fun a ha ↦ hnearer ⟨a, ha⟩

section Named

variable {name : Token}

theorem Nearest.get (hn : g.Nearest n name.lexeme d m) (h : g.WellFormed)
    (ha : (g.own m).get? name.lexeme = some a) :
    perform (.get n name) g = .ok (.value a) g := by
  rw [h.own_eq] at ha
  rw [perform_get, Store.get?, hn.frameOf? h, Option.bind_some, ha]

theorem Nearest.getAt (hn : g.Nearest n x d m) (h : g.WellFormed) (ha : (g.own m).get? x = some a) :
    perform (.getAt n d x) g = .ok (.value a) g := by
  obtain ⟨rest, hdrop⟩ := h.isAncestor_iff.mp hn.ancestor
  rw [h.own_eq] at ha
  rw [perform_getAt, Store.getAt_of_drop hdrop ha]

theorem Nearest.assign (hn : g.Nearest n name.lexeme d m) (h : g.WellFormed) (a : α) :
    perform (.assign n name a) g
      = .ok .done { g with frames := g.frames.bind m name.lexeme a } := by
  rw [perform_assign, Store.assign?, hn.frameOf? h]
  rfl

theorem Nearest.assignAt (hn : g.Nearest n x d m) (h : g.WellFormed) (a : α) :
    perform (.assignAt n d x a) g = .ok .done { g with frames := g.frames.bind m x a } := by
  obtain ⟨rest, hdrop⟩ := h.isAncestor_iff.mp hn.ancestor
  obtain ⟨b, hb⟩ := hn.binds
  rw [h.own_eq] at hb
  rw [perform_assignAt, Store.assignAt_of_drop hdrop hb]

end Named

end Search

end Graph

end Lox
