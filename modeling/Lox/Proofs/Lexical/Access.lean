import Lox.Proofs.Lexical.Places

/-!
# Access by distance

The moments at which a run goes to a frame at a distance. A name that is read there is always bound,
and a name that is written there is bound as well, unless it is the name of a variable that is on
the way.
-/

namespace Lox

/-- While a task is done, a name is read at a distance from the frame that is current then. -/
inductive Task.Reads (host : Host) : Sigma Task → Machine → Machine → Int → String → Prop
  | named {r : Reference} {d : Nat} {M : Machine} :
      r.distance = some d → Reads host ⟨_, .evaluate (.var r)⟩ M M d r.name.lexeme
  | self {r : Reference} {d : Nat} {M : Machine} :
      r.distance = some d → Reads host ⟨_, .evaluate (.self r)⟩ M M d r.name.lexeme
  | parent {r : Reference} {method : Token} {d : Nat} {M : Machine} :
      r.distance = some d → Reads host ⟨_, .evaluate (.inherited r method)⟩ M M d "super"
  | receiver {r : Reference} {method : Token} {d : Nat} {M : Machine} :
      r.distance = some d → Reads host ⟨_, .evaluate (.inherited r method)⟩ M M (d - 1) "this"
  | superclass {name : Token} {r : Reference} {methods : List FunDecl} {d : Nat} {M M' : Machine} :
      r.distance = some d → Eval.step host M = .ok () M' →
      Reads host ⟨_, .execute (.class name (some r) methods)⟩ M M' d r.name.lexeme

/-- While a task is done, with a number of nested calls, a name is written at a distance. -/
inductive Task.Writes (host : Host) : Nat → Sigma Task → Machine → Machine → Int → String → Value →
    Prop
  | assignment {nesting : Nat} {r : Reference} {value : Expr} {d : Nat} {M M' : Machine}
    {v : Value} :
      r.distance = some d → Eval.evaluate host nesting value M = .ok v M' →
      Writes host (nesting + 1) ⟨_, .assignment r value⟩ M M' d r.name.lexeme v

namespace Lexical

variable {excused : String → Prop} {β : Placement} {M M' : Lox.Machine} {μ : Machine}
  {ctx : Context}
  {scope : Scope} {host : Host} {nesting : Nat} {outer : List Begun} {t : Sigma Task}

/-- A name can be read at a distance: there is a frame, and it binds the name to a value that the
name can have. -/
def Readable (M : Lox.Machine) (d : Int) (x : String) : Prop :=
  (∃ env, M.current.ancestor d = .ok env) ∧ ∃ v, M.frames.getAt M.current d x = .ok v ∧ Suits x v

theorem Matches.readable (h : Matches excused β M μ) {d : Nat} {id : RecordId} {rest : Environment}
    {x : String} {l : Location} (hdrop : M.current.drop d = id :: rest) (hl : β id x = some l) :
    Readable M d x := by
  obtain ⟨hid, V, v, hV, -, -⟩ := h.located hl
  exact ⟨⟨_, Store.ancestor_of_drop hdrop⟩, V, Store.getAt_of_drop hdrop hV, h.suits hid hV⟩

theorem Meets.readable (h : Meets excused β ctx scope M μ) {d : Nat} {x : String}
    (hx : x ≠ "super") (hd : ctx.distance? x = some d) : Readable M d x := by
  obtain ⟨id, rest, l, hdrop, hl, -⟩ := h.placed.exists_frame hx hd
  exact h.agree.readable hdrop hl

/-- Where something is inherited, `super` and `this` are one frame apart. -/
theorem Meets.readable_parent (h : Meets excused β ctx scope M μ) {r : Reference} {method : Token}
    {d : Nat} {pending : Option String}
    (hscoped : (Expr.inherited r method).Scoped excused ctx pending)
    (hd : r.distance = some d) : Readable M d "super" ∧ Readable M (d - 1) "this" := by
  cases hscoped with
  | inherited hdistance =>
    rw [hd] at hdistance
    have hinherits : ctx.inherits = true := by
      by_contra hnone
      rw [if_neg hnone] at hdistance
      cases hdistance
    obtain ⟨d', self, parent, rest, l, l', hd', hdrop, hl, -, hl', -⟩ :=
      h.placed.exists_parent h.proper hinherits
    rw [if_pos hinherits, hd'] at hdistance
    obtain rfl : d = d' + 1 := Option.some.inj hdistance
    have hdrop' : M.current.drop (d' + 1) = parent :: rest := by
      rw [← List.drop_drop, hdrop, List.drop_one, List.tail_cons]
    refine ⟨h.agree.readable hdrop' hl, ?_⟩
    rw [show ((d' + 1 : Nat) : Int) - 1 = d' by omega]
    exact h.agree.readable hdrop hl'

/-- Whatever a sound task reads at a distance can be read. -/
theorem Sound.readable (h : Sound excused outer t M) {d : Int} {x : String}
    (hreads : Task.Reads host t M M' d x) : Readable M' d x := by
  cases hreads with
  | named hd =>
    obtain ⟨β, μ, ctx, scope, pending, h, -, hscoped, -⟩ := h.of_expressions rfl
    cases hscoped _ List.mem_cons_self with
    | var hordinary _ hdistance => exact h.readable hordinary.2 (hdistance.symm.trans hd)
  | self hd =>
    obtain ⟨β, μ, ctx, scope, pending, h, -, hscoped, -⟩ := h.of_expressions rfl
    cases hscoped _ List.mem_cons_self with
    | self hthis hdistance =>
      rw [hthis]
      exact h.readable (by decide) (hdistance.symm.trans hd)
  | parent hd =>
    obtain ⟨β, μ, ctx, scope, pending, h, -, hscoped, -⟩ := h.of_expressions rfl
    exact (h.readable_parent (hscoped _ List.mem_cons_self) hd).1
  | receiver hd =>
    obtain ⟨β, μ, ctx, scope, pending, h, -, hscoped, -⟩ := h.of_expressions rfl
    exact (h.readable_parent (hscoped _ List.mem_cons_self) hd).2
  | superclass hd hstep =>
    obtain ⟨β, μ, ctx, scope, inside, h, hscoped, -⟩ := h.of_statement rfl
    cases hscoped with
    | «class» hname hadmits hsuperclass hmethods =>
      obtain ⟨hr, -, hdistance⟩ := hsuperclass _ rfl
      have hlockstep : Lockstep excused inside β (Lox.Eval.step host) _ _ μ _ := .step h host
      obtain ⟨β', _, μ', -, hlater, h', -⟩ := hlockstep.ok_of hstep
      exact h'.readable hr.2 (hdistance.symm.trans hd)

/-- A name can be written at a distance: there is a frame, and it binds the name already. -/
def Writable (M : Lox.Machine) (d : Int) (x : String) (v : Lox.Value) : Prop :=
  ∃ frames, M.frames.assignAt M.current d x v = .ok frames

/-- A sound task writes a name that is bound, unless the name is on the way; and then the write is
in the initializer of the variable, and the frame is that of the variable. -/
theorem Sound.writable (h : Sound excused outer t M) {d : Int} {x : String} {v : Lox.Value}
    (hwrites : Task.Writes host nesting t M M' d x v) :
    (∃ env, M'.current.ancestor d = .ok env) ∧ (Writable M' d x v ∨
      M'.frames.assignAt M'.current d x v = .error (.unbound x d) ∧ d = 0 ∧ excused x ∧
        ∃ name initializer, Token.lexeme name = x ∧
          Initializing name initializer ((t, M) :: outer)) := by
  cases hwrites with
  | @assignment nesting r value d _ _ _ hd hvalue =>
    obtain ⟨β, μ, ctx, scope, pending, h, hpending, hscoped, hinitializes⟩ := h.of_expressions rfl
    have hlockstep : ∀ {e : Expr}, e.Scoped excused ctx pending →
        Lockstep excused false β (Lox.Eval.evaluate host nesting e) _ _ μ _ :=
      fun he ↦ (simulates excused host nesting).evaluate h hpending he
    cases hscoped _ List.mem_cons_self with
    | assign hordinary _ hdistance he =>
      obtain ⟨β', _, μ', -, -, h', -⟩ := (hlockstep he).ok_of hvalue
      obtain ⟨id, rest, l, hdrop, hl, -⟩ :=
        h'.placed.exists_frame hordinary.2 (hdistance.symm.trans hd)
      obtain ⟨-, V, -, hV, -⟩ := h'.agree.located hl
      exact ⟨⟨_, Store.ancestor_of_drop hdrop⟩, .inl ⟨_, Store.assignAt_of_drop hdrop hV⟩⟩
    | assignPending hname hexcused hdistance he =>
      obtain ⟨β', _, μ', -, -, h', -⟩ := (hlockstep he).ok_of hvalue
      obtain rfl : d = 0 := Option.some.inj (hd.symm.trans hdistance)
      obtain ⟨xs, outer', hctx, hx⟩ := hpending _ hname
      obtain ⟨id, rest, hcurrent, hnone⟩ := h'.unbound hctx hx
      have hdrop : M'.current.drop 0 = id :: rest := hcurrent
      obtain ⟨name, initializer, hlexeme, houter, hcontains⟩ := hinitializes _ hname
      exact ⟨⟨_, Store.ancestor_of_drop hdrop⟩, .inr ⟨Store.assignAt_of_unbound hdrop hnone, rfl,
        hexcused, name, initializer, hlexeme, .inner rfl hcontains houter⟩⟩

end Lexical

end Lox
