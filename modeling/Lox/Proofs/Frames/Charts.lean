import Lox.Proofs.Lexical.Calls
import Lox.Proofs.Methods.Values
import Lox.Proofs.Scoping.Mentions

/-!
# Charts of frames

A frame does not say what it was made for. A chart does: it has an entry for every frame there is,
with the environment in which the frame was made and the purpose for which it was. A frame is made
for a scope of a program, for a class, or for a method that is bound to an instance. What it may
bind follows from its purpose, and stays so: a name is declared only in the scope in which it
stands, and a value is assigned only where the name is bound already.

The entries of a chart are not invented. Those of scopes and classes refer to the history of a
session, at some moment of which just that block, loop, call or declaration was begun. An entry
never changes, so a chart of a later moment extends those of all earlier ones, like a typing of a
store.

## Classes

A class is found in the chart at the frame of its methods. So the chart is the heap of all classes
that were ever declared, also of those that no variable holds any more. Each of them stands behind
its superclass there, and has a greater identity.
-/

namespace Lox

/-! ## Purposes -/

/-- What a frame is made for. -/
inductive Purpose where
  | builtins
  | globals
  | block (body : List Stmt)
  /-- A for statement, which may declare a variable at its beginning. -/
  | forLoop (initializer : Option Stmt)
  | call (declaration : FunDecl)
  /-- A method of a class that is bound to an instance. -/
  | bound (c : Class) (method : FunDecl) (self : Instance)
  /-- The methods of a class. -/
  | methods (c : Class)

namespace Purpose

/-- The names that may be declared in a frame. The globals are in no scope, so they may have any
name. -/
def Admits : Purpose → String → Prop
  | builtins, x => x ∈ Native.all.map Native.name
  | globals, _ => True
  | block body, x => x ∈ body.flatMap Stmt.declares
  | forLoop initializer, x => x ∈ Stmt.declaresOption initializer
  | call declaration, x => x ∈ declaration.parameters.map Token.lexeme
  | bound _ _ _, _ | methods _, _ => False

/-- The bindings that a frame may have. -/
def Fills : Purpose → Bindings Value → Prop
  | builtins, b => b.names = Native.all.map Native.name
  | bound _ _ self, b => b = .ofList [("this", .instance self)]
  | methods c, b => b = .ofList (c.superclass.elim [] fun d ↦ [("super", .class d)])
  | purpose, b => ∀ x ∈ b.names, Ordinary x ∧ purpose.Admits x

variable {purpose : Purpose} {b : Bindings Value} {x : String} {v : Value}

/-- A name is bound that is admitted, or that is bound already. -/
theorem Fills.insert (h : purpose.Fills b) (hx : Ordinary x)
    (hadmits : x ∈ b.names ∨ purpose.Admits x) : purpose.Fills (b.insert x v) := by
  have hnames : ∀ {purpose : Purpose}, (∀ y ∈ b.names, Ordinary y ∧ purpose.Admits y) →
      (x ∈ b.names ∨ purpose.Admits x) →
      ∀ y ∈ (b.insert x v).names, Ordinary y ∧ purpose.Admits y := by
    intro purpose h hadmits y hy
    by_cases hold : y ∈ b.names
    · exact h y hold
    · obtain rfl := (Bindings.mem_names_insert.mp hy).resolve_left hold
      exact ⟨hx, hadmits.resolve_left hold⟩
  cases purpose with
  | builtins =>
    have hmem : x ∈ b.names := hadmits.elim id fun hx ↦ by rw [h]; exact hx
    exact (Bindings.names_insert b x v).trans ((if_pos hmem).trans h)
  | bound c method self =>
    rw [show b = _ from h] at hadmits
    rw [List.mem_singleton.mp (hadmits.resolve_right id)] at hx
    exact (not_ordinary_this hx).elim
  | methods c =>
    rw [show b = _ from h] at hadmits
    cases hparent : c.superclass with
    | none =>
      rw [hparent] at hadmits
      cases hadmits.resolve_right id
    | some d =>
      rw [hparent] at hadmits
      rw [List.mem_singleton.mp (hadmits.resolve_right id)] at hx
      exact (not_ordinary_super hx).elim
  | globals | block | forLoop | call => exact hnames h hadmits

/-- What no program can declare is only in the frame of a method that is bound, or in that of a
class with a superclass. -/
theorem Fills.of_not_ordinary (h : purpose.Fills b) (hx : ¬ Ordinary x) (hmem : x ∈ b.names) :
    (∃ c method self, purpose = .bound c method self ∧ b = .ofList [("this", .instance self)]) ∨
      ∃ c d, purpose = .methods c ∧ c.superclass = some d ∧ b = .ofList [("super", .class d)] := by
  cases purpose with
  | builtins =>
    have hnatives : ∀ y ∈ Native.all.map Native.name, y ≠ "this" ∧ y ≠ "super" := by decide
    rw [show b.names = _ from h] at hmem
    exact (hx (hnatives x hmem)).elim
  | bound c method self => exact .inl ⟨c, method, self, rfl, h⟩
  | methods c =>
    have hb : b = .ofList (c.superclass.elim [] fun d ↦ [("super", .class d)]) := h
    cases hparent : c.superclass with
    | none =>
      rw [hb, hparent] at hmem
      cases hmem
    | some d =>
      rw [hparent] at hb
      exact .inr ⟨c, d, rfl, hparent, hb⟩
  | globals | block | forLoop | call => exact (hx (h x hmem).1).elim

/-- Only a method that is bound has a frame for `this`. -/
theorem Fills.exists_of_this (h : purpose.Fills b) (hv : b.get? "this" = some v) :
    ∃ c method self, purpose = .bound c method self ∧ v = .instance self ∧
      b = .ofList [("this", v)] := by
  rcases h.of_not_ordinary not_ordinary_this (Bindings.mem_names_of_get? hv) with
    ⟨c, method, self, hpurpose, rfl⟩ | ⟨_, _, _, _, rfl⟩
  · cases hv
    exact ⟨c, method, self, hpurpose, rfl, rfl⟩
  · cases hv

/-- Only a class with a superclass has a frame for `super`. -/
theorem Fills.exists_of_super (h : purpose.Fills b) (hv : b.get? "super" = some v) :
    ∃ c d, purpose = .methods c ∧ c.superclass = some d ∧ v = .class d ∧
      b = .ofList [("super", v)] := by
  rcases h.of_not_ordinary not_ordinary_super (Bindings.mem_names_of_get? hv) with
    ⟨_, _, _, _, rfl⟩ | ⟨c, d, hpurpose, hparent, rfl⟩
  · cases hv
  · cases hv
    exact ⟨c, d, hpurpose, hparent, rfl, rfl⟩

end Purpose

/-! ## Charts -/

/-- Where a frame comes from: the environment in which it was made, and its purpose. -/
structure Origin where
  outer : Environment
  purpose : Purpose

/-- The origins of the frames of a machine. -/
abbrev Chart := List Origin

namespace Chart

/-- The environments around the frames. -/
def links (chart : Chart) : List Environment := chart.map Origin.outer

/-- An environment goes along a chart, out to the globals. -/
structure Reaches (chart : Chart) (env : Environment) : Prop where
  along : Along chart.links env
  globals : Machine.globals <:+ env

/-- The chart of a machine on which nothing has run. -/
def start : Chart := [⟨[], .builtins⟩, ⟨[Machine.builtinFrame], .globals⟩]

/-- A class has a frame for its methods, which was made for nothing else. -/
def HasClass (chart : Chart) (c : Class) : Prop :=
  ∃ id outer, c.environment = id :: outer ∧ chart[id]? = some ⟨outer, .methods c⟩

/-- A name may be declared in an environment. -/
def Declares (chart : Chart) (env : Environment) (x : String) : Prop :=
  ∃ id outer origin, env = id :: outer ∧ chart[id]? = some origin ∧ origin.purpose.Admits x

variable {chart chart' : Chart} {env : Environment} {c : Class} {id : RecordId} {origin : Origin}

theorem links_mono (h : chart <+: chart') : chart.links <+: chart'.links := by
  obtain ⟨more, rfl⟩ := h
  rw [links, links, List.map_append]
  exact List.prefix_append _ _

theorem getElem?_links (h : chart[id]? = some origin) : chart.links[id]? = some origin.outer := by
  rw [links, List.getElem?_map, h]
  rfl

theorem getElem?_mono (h : chart[id]? = some origin) (hchart : chart <+: chart') :
    chart'[id]? = some origin := by
  obtain ⟨more, rfl⟩ := hchart
  rw [List.getElem?_append_left (List.getElem?_eq_some_iff.mp h).1]
  exact h

theorem Reaches.mono (h : chart.Reaches env) (hchart : chart <+: chart') : chart'.Reaches env :=
  ⟨h.along.mono (links_mono hchart), h.globals⟩

theorem Reaches.lt_length (h : chart.Reaches env) : ∀ id ∈ env, id < chart.length := by
  have hlt := h.along.lt_length
  rwa [links, List.length_map] at hlt

theorem HasClass.mono (h : chart.HasClass c) (hchart : chart <+: chart') : chart'.HasClass c := by
  obtain ⟨id, outer, henv, horigin⟩ := h
  exact ⟨id, outer, henv, getElem?_mono horigin hchart⟩

theorem Declares.mono {x : String} (h : chart.Declares env x) (hchart : chart <+: chart') :
    chart'.Declares env x := by
  obtain ⟨id, outer, origin, henv, horigin, hadmits⟩ := h
  exact ⟨id, outer, origin, henv, getElem?_mono horigin hchart, hadmits⟩

/-- What is in a chart with one more entry. -/
theorem eq_or_of_getElem?_concat {more : Origin} (h : (chart ++ [more])[id]? = some origin) :
    chart[id]? = some origin ∨ id = chart.length ∧ origin = more := by
  rcases Nat.lt_trichotomy id chart.length with hlt | rfl | hlt
  · rw [List.getElem?_append_left hlt] at h
    exact .inl h
  · rw [List.getElem?_concat_length] at h
    exact .inr ⟨rfl, (Option.some.inj h).symm⟩
  · rw [List.getElem?_eq_none (by rwa [List.length_append])] at h
    cases h

/-- A class in a chart with one more entry. -/
theorem HasClass.eq_or_of_concat {more : Origin} (h : (chart ++ [more]).HasClass c) :
    chart.HasClass c ∨ more.purpose = .methods c := by
  obtain ⟨id, outer, henv, horigin⟩ := h
  rcases eq_or_of_getElem?_concat horigin with horigin | ⟨-, rfl⟩
  · exact .inl ⟨id, outer, henv, horigin⟩
  · exact .inr rfl

end Chart

/-- An origin is what it says. A frame of a scope or of a class was made when that scope was entered
or that class was declared, and a frame of a method when the method was bound. -/
inductive Origin.Genuine (H : History) (chart : Chart) (id : RecordId) : Origin → Prop
  | builtins : id = Machine.builtinFrame → Genuine H chart id ⟨[], .builtins⟩
  | globals : id = Machine.globalFrame → Genuine H chart id ⟨[Machine.builtinFrame], .globals⟩
  | block {nesting : Nat} {running : Option Closure} {body : List Stmt} {M : Machine} :
      H (nesting + 1) running ⟨_, .block body⟩ M → id = M.frames.next →
      Genuine H chart id ⟨M.current, .block body⟩
  | forLoop {nesting : Nat} {running : Option Closure} {initializer : Option Stmt}
      {condition increment : Option Expr} {body : Stmt} {M : Machine} :
      H (nesting + 1) running ⟨_, .forLoop initializer condition increment body⟩ M →
      id = M.frames.next → Genuine H chart id ⟨M.current, .forLoop initializer⟩
  | call {nesting : Nat} {running : Option Closure} {f : Closure} {vs : List Value} {M : Machine} :
      H (nesting + 1) running ⟨_, .callFunction f vs⟩ M → id = M.frames.next →
      Genuine H chart id ⟨f.environment, .call f.declaration⟩
  | bound {c : Class} {name : String} {method : FunDecl} {self : Instance} :
      chart.HasClass c → c.methods.get? name = some method → chart.HasClass self.class →
      Genuine H chart id ⟨c.environment, .bound c method self⟩
  | methods {c : Class} {outer : Environment} :
      c.Declared H → c.environment = id :: outer →
      (∀ d ∈ c.superclass, chart.HasClass d ∧ d.id < c.id) →
      Genuine H chart id ⟨outer, .methods c⟩

theorem Origin.Genuine.mono {H : History} {chart chart' : Chart} {id : RecordId} {origin : Origin}
    (h : origin.Genuine H chart id) (hchart : chart <+: chart') : origin.Genuine H chart' id := by
  cases h with
  | builtins h => exact .builtins h
  | globals h => exact .globals h
  | block h hid => exact .block h hid
  | forLoop h hid => exact .forLoop h hid
  | call h hid => exact .call h hid
  | bound hc hmethod hself => exact .bound (hc.mono hchart) hmethod (hself.mono hchart)
  | methods hdeclared henv hparent =>
    exact .methods hdeclared henv fun d hd ↦ (hparent d hd).imp_left (·.mono hchart)

/-- A chart goes on from that of the start. All origins are what they say, and the frames of an
environment were made before the frame that it is around. Only the frame of the built-in functions
is not inside of the globals. -/
structure Chart.Sound (H : History) (chart : Chart) : Prop where
  start : Chart.start <+: chart
  genuine : ∀ (id : RecordId) (origin : Origin), chart[id]? = some origin →
    origin.Genuine H chart id
  along : ∀ (id : RecordId) (origin : Origin), chart[id]? = some origin →
    Along chart.links origin.outer
  lt : ∀ (id : RecordId) (origin : Origin), chart[id]? = some origin →
    ∀ frame ∈ origin.outer, frame < id
  globals : ∀ (id : RecordId) (origin : Origin), chart[id]? = some origin →
    Machine.globals <:+ id :: origin.outer ∨ origin.purpose = .builtins

namespace Chart.Sound

variable {H : History} {chart : Chart} {c d : Class} {id : RecordId} {origin : Origin}

/-- A frame is made in an environment that is known. -/
theorem push (h : chart.Sound H) (houter : chart.Reaches origin.outer)
    (horigin : origin.Genuine H chart chart.length) : (chart ++ [origin]).Sound H := by
  have hchart : chart <+: chart ++ [origin] := List.prefix_append chart [origin]
  have hboth : ∀ {P : RecordId → Origin → Prop}, (∀ id o, chart[id]? = some o → P id o) →
      P chart.length origin → ∀ id o, (chart ++ [origin])[id]? = some o → P id o := by
    intro P hold hnew id o ho
    rcases eq_or_of_getElem?_concat ho with ho | ⟨rfl, rfl⟩
    · exact hold id o ho
    · exact hnew
  refine ⟨h.start.trans hchart,
    hboth (fun id o ho ↦ (h.genuine id o ho).mono hchart) (horigin.mono hchart),
    hboth (fun id o ho ↦ (h.along id o ho).mono (links_mono hchart)) ?_,
    hboth h.lt houter.lt_length, hboth h.globals (.inl ?_)⟩
  · exact (houter.mono hchart).along
  · exact houter.globals.trans (List.suffix_cons _ _)

/-- The superclass of a class is in the chart, and is older. -/
theorem parent (h : chart.Sound H) (hc : chart.HasClass c) (hd : c.superclass = some d) :
    chart.HasClass d ∧ d.id < c.id := by
  obtain ⟨id, outer, -, horigin⟩ := hc
  cases h.genuine id _ horigin with
  | methods _ _ hparent => exact hparent d hd

/-- With a class, all classes above it are in the chart. -/
theorem hasClass_of_mem_lineage (h : chart.Sound H) (hc : chart.HasClass c) (hd : d ∈ c.lineage) :
    chart.HasClass d := by
  fun_induction Class.lineage c with
  | case1 => rwa [List.mem_singleton.mp hd]
  | case2 id name parent methods environment ih =>
    rcases List.mem_cons.mp hd with rfl | hd
    · exact hc
    · exact ih (h.parent hc rfl).1 hd

/-- The environment of the methods of a class. -/
theorem reaches_of_hasClass (h : chart.Sound H) (hc : chart.HasClass c) :
    chart.Reaches c.environment := by
  obtain ⟨id, outer, henv, horigin⟩ := hc
  rw [henv]
  refine ⟨⟨getElem?_links horigin, h.along id _ horigin⟩, (h.globals id _ horigin).resolve_right ?_⟩
  exact fun hbuiltins ↦ by cases hbuiltins

/-- The frames of a chain were made one inside of the other, so there are fewer and fewer before
them. -/
theorem pairwise_of_along {env : Environment} (h : chart.Sound H) (henv : Along chart.links env) :
    env.Pairwise (· > ·) := by
  induction env with
  | nil => exact .nil
  | cons id outer ih =>
    obtain ⟨origin, horigin, houter⟩ := Option.map_eq_some_iff.mp
      ((List.getElem?_map ..).symm.trans henv.1)
    rw [List.pairwise_cons]
    exact ⟨houter ▸ h.lt id origin horigin, ih henv.2⟩

end Chart.Sound

/-! ## Values and machines -/

/-- What a value holds is in a chart: the environment of a function, or a class. -/
def Value.Charted (chart : Chart) : Value → Prop
  | .function f => chart.Reaches f.environment
  | .class c => chart.HasClass c
  | .instance i => chart.HasClass i.class
  | .nil | .bool _ | .number _ | .string _ | .native _ => True

/-- What a value holds that leaves a function is in a chart. -/
def Interrupt.Charted (chart : Chart) : Interrupt → Prop
  | .returning v => v.Charted chart
  | .issue _ | .desync _ | .stuck | .exhausted => True

theorem Value.Charted.mono {chart chart' : Chart} {v : Value} (h : v.Charted chart)
    (hchart : chart <+: chart') : v.Charted chart' := by
  cases v with
  | function f => exact Chart.Reaches.mono h hchart
  | «class» c => exact Chart.HasClass.mono h hchart
  | «instance» i => exact Chart.HasClass.mono h hchart
  | _ => trivial

/-- A value without functions and classes is in any chart. -/
theorem Value.charted_of_environments {chart : Chart} {v : Value} (h : v.environments = []) :
    v.Charted chart := by
  cases v with
  | function f => cases h
  | «class» c => exact (c.environments_ne_nil h).elim
  | «instance» i => exact (i.class.environments_ne_nil h).elim
  | _ => trivial

theorem Literal.toValue_charted {chart : Chart} (value : Literal) :
    value.toValue.Charted chart := by
  cases value <;> trivial

/-- All values in a store are in a chart. -/
def Store.Charted (chart : Chart) (s : Store Value) : Prop :=
  ∀ id x v, (s.record id).get? x = some v → v.Charted chart

/-- A chart tells of a machine: of each of its frames, and of all classes and functions that it
holds. No two classes have the same identity. -/
structure Machine.Charted (H : History) (chart : Chart) (M : Machine) : Prop where
  sound : chart.Sound H
  size : chart.length = M.frames.next
  current : chart.Reaches M.current
  fills : ∀ (id : RecordId) (origin : Origin), chart[id]? = some origin →
    origin.purpose.Fills (M.frames.record id)
  ids : ∀ c, chart.HasClass c → c.id < M.nextId
  distinct : ∀ c d, chart.HasClass c → chart.HasClass d → c.id = d.id → c = d
  frames : M.frames.Charted chart
  objects : M.objects.Charted chart

namespace Store.Charted

variable {chart chart' : Chart} {s : Store Value}

theorem mono (h : s.Charted chart) (hchart : chart <+: chart') : s.Charted chart' :=
  fun id x v hv ↦ (h id x v hv).mono hchart

theorem push (h : s.Charted chart) {b : Bindings Value}
    (hb : ∀ x v, b.get? x = some v → v.Charted chart) : (s.push b).Charted chart :=
  fun id x v hv ↦ (get?_of_push hv).elim (hb x v) (h id x v)

theorem bind (h : s.Charted chart) (id : RecordId) (x : String) {v : Value}
    (hv : v.Charted chart) : (s.bind id x v).Charted chart := by
  intro other y w hw
  rcases get?_of_bind hw with rfl | hw
  · exact hv
  · exact h other y w hw

end Store.Charted

namespace Machine.Charted

variable {H : History} {chart : Chart} {M : Machine} {id : RecordId} {x : String} {v : Value}

/-- There is an origin for every frame that binds something. -/
theorem exists_origin (h : M.Charted H chart) (hv : (M.frames.record id).get? x = some v) :
    ∃ origin, chart[id]? = some origin := by
  have hlt : id < chart.length := h.size ▸ Store.lt_next_of_get? hv
  exact ⟨chart[id], List.getElem?_eq_getElem hlt⟩

theorem exists_of_this (h : M.Charted H chart)
    (hv : (M.frames.record id).get? "this" = some v) : ∃ self, v = .instance self := by
  obtain ⟨origin, horigin⟩ := h.exists_origin hv
  obtain ⟨_, _, self, -, hself, -⟩ := (h.fills id origin horigin).exists_of_this hv
  exact ⟨self, hself⟩

/-- A name is bound where it is bound already, or where it may be declared. -/
theorem bind (h : M.Charted H chart) (hx : Ordinary x) (hv : v.Charted chart)
    (hadmits : ∀ origin, chart[id]? = some origin →
      x ∈ (M.frames.record id).names ∨ origin.purpose.Admits x) :
    ({ M with frames := M.frames.bind id x v } : Machine).Charted H chart := by
  refine ⟨h.sound, h.size.trans (Store.next_bind ..).symm, h.current, fun id' origin horigin ↦ ?_,
    h.ids, h.distinct, h.frames.bind id x hv, h.objects⟩
  have hfills := h.fills id' origin horigin
  by_cases hid : id' = id
  · subst hid
    have hlt : id' < M.frames.next := h.size ▸ (List.getElem?_eq_some_iff.mp horigin).1
    rw [Store.record_bind_self hlt]
    exact hfills.insert hx (hadmits origin horigin)
  · rw [Store.record_bind_of_ne hid]
    exact hfills

/-- A frame is made, perhaps for a new class, which has a new identity. -/
theorem push (h : M.Charted H chart) (origin : Origin) (b : Bindings Value) (nextId : Nat)
    (houter : chart.Reaches origin.outer) (horigin : origin.Genuine H chart M.frames.next)
    (hfills : origin.purpose.Fills b) (hb : ∀ x v, b.get? x = some v → v.Charted chart)
    (hnext : M.nextId ≤ nextId)
    (hclass : ∀ c, origin.purpose = .methods c → M.nextId ≤ c.id ∧ c.id < nextId) :
    ({ M with frames := M.frames.push b, nextId } : Machine).Charted H (chart ++ [origin]) := by
  have hchart : chart <+: chart ++ [origin] := List.prefix_append chart [origin]
  refine ⟨h.sound.push houter (h.size ▸ horigin), ?_, h.current.mono hchart, fun id o ho ↦ ?_,
    fun c hc ↦ ?_, fun c d hc hd heq ↦ ?_, (h.frames.push hb).mono hchart, h.objects.mono hchart⟩
  · rw [List.length_append, List.length_singleton, h.size, Store.next_push]
  · change o.purpose.Fills ((M.frames.push b).record id)
    rcases Chart.eq_or_of_getElem?_concat ho with ho | ⟨rfl, rfl⟩
    · rw [Store.record_push_of_lt (h.size ▸ (List.getElem?_eq_some_iff.mp ho).1)]
      exact h.fills id o ho
    · rw [h.size, Store.record_push_self]
      exact hfills
  · rcases hc.eq_or_of_concat with hc | hc
    · exact Nat.lt_of_lt_of_le (h.ids c hc) hnext
    · exact (hclass c hc).2
  · rcases hc.eq_or_of_concat with hc | hc <;> rcases hd.eq_or_of_concat with hd | hd
    · exact h.distinct c d hc hd heq
    · exact absurd heq (Nat.ne_of_lt (Nat.lt_of_lt_of_le (h.ids c hc) (hclass d hd).1))
    · exact absurd heq (Nat.ne_of_gt (Nat.lt_of_lt_of_le (h.ids d hd) (hclass c hc).1))
    · exact Purpose.methods.inj (hc.symm.trans hd)

/-- Identities are used up, and nothing else happens to frames and objects. -/
theorem of_eq {M' : Machine} (h : M.Charted H chart) (hframes : M'.frames = M.frames)
    (hobjects : M'.objects = M.objects) (hcurrent : M'.current = M.current)
    (hnext : M.nextId ≤ M'.nextId) : M'.Charted H chart := by
  refine ⟨h.sound, hframes ▸ h.size, hcurrent ▸ h.current, hframes ▸ h.fills,
    fun c hc ↦ Nat.lt_of_lt_of_le (h.ids c hc) hnext, h.distinct, hframes ▸ h.frames,
    hobjects ▸ h.objects⟩

/-- The fields of instances change. -/
theorem withObjects {objects : Store Value} (h : M.Charted H chart)
    (hobjects : objects.Charted chart) : ({ M with objects } : Machine).Charted H chart :=
  ⟨h.sound, h.size, h.current, h.fills, h.ids, h.distinct, h.frames, hobjects⟩

/-- Another environment becomes current. -/
theorem enter {env : Environment} (h : M.Charted H chart) (henv : chart.Reaches env) :
    ({ M with current := env } : Machine).Charted H chart :=
  ⟨h.sound, h.size, henv, h.fills, h.ids, h.distinct, h.frames, h.objects⟩

/-- At the start there are two frames, and no class has been declared. -/
theorem start (H : History) : Machine.start.Charted H .start := by
  have hboth : ∀ {P : RecordId → Origin → Prop}, P builtinFrame ⟨[], .builtins⟩ →
      P globalFrame ⟨[builtinFrame], .globals⟩ →
      ∀ (id : RecordId) (origin : Origin), Chart.start[id]? = some origin → P id origin := by
    intro P hbuiltins hglobals id origin horigin
    rcases id with _ | _ | id
    · cases horigin
      exact hbuiltins
    · cases horigin
      exact hglobals
    · cases horigin
  have hnone : ∀ c, ¬ Chart.start.HasClass c := by
    rintro c ⟨id, outer, -, horigin⟩
    exact hboth (P := fun _ origin ↦ origin.purpose ≠ .methods c) (fun h ↦ by cases h)
      (fun h ↦ by cases h) id _ horigin rfl
  have hbare : ∀ x ∈ (Bindings.empty : Bindings Value).names,
      Ordinary x ∧ Purpose.globals.Admits x := List.forall_mem_nil _
  refine ⟨⟨List.prefix_rfl, hboth (.builtins rfl) (.globals rfl), hboth trivial ⟨rfl, trivial⟩,
    hboth (List.forall_mem_nil _) ?_, hboth (.inr rfl) (.inl List.suffix_rfl)⟩, rfl,
    ⟨⟨rfl, rfl, trivial⟩, List.suffix_rfl⟩, hboth rfl hbare,
    fun c hc ↦ (hnone c hc).elim, fun c _ hc ↦ (hnone c hc).elim, ?_, ?_⟩
  · exact List.forall_mem_singleton.mpr Nat.zero_lt_one
  · intro id x v hv
    rcases Store.get?_of_push hv with hv | hv
    · cases hv
    · rcases Store.get?_of_push hv with hv | hv
      · obtain ⟨n, -, heq⟩ := List.mem_map.mp (Bindings.mem_of_get?_ofList hv)
        cases heq
        trivial
      · rw [Store.record_of_le (Nat.zero_le id)] at hv
        cases hv
  · intro id x v hv
    rw [Machine.start, Store.record_of_le (Nat.zero_le id)] at hv
    cases hv

end Machine.Charted

end Lox
