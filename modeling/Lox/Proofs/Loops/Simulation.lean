import Lox.Evaluation
import Lox.Proofs.Lexical.Lockstep
import Lox.Proofs.Loops.Actions

/-!
# A for statement and its loop do the same

Two forms of a program agree, whichever of its for statements are written with `while` in the second
one. The proof goes along the evaluator, with one lemma for each of its functions. Only one case is
about two statements of different kinds: a round of the for statement is a round of the loop, where
the body and the increment are in an additional frame.

The second form needs more nested calls. Three of them for one of the first form are enough, since a
for statement takes two calls down to its clauses, and its other form takes six.
-/

namespace Lox

variable {side : Side} {τ : Pairing} {Γ : Padding} {M N : Machine} {host : Host}
  {n n' m m' : Nat} {α α' : Type}

/-- There are enough nested calls on the side that has to manage if the other one does. -/
def Side.Ample : Side → Nat → Nat → Prop
  | .first, n, n' => 3 * n ≤ n'
  | .second, n, n' => n' ≤ n

theorem Side.Ample.pred (h : side.Ample (n + 1) (n' + 1)) : side.Ample n n' := by
  cases side <;> simp only [Side.Ample] at h ⊢ <;> omega

/-- The second form takes up to six calls where the first one takes two. -/
theorem Side.Ample.unrolled {k : Nat} (h : side.Ample (n + 2) (n' + k)) (hk : 2 ≤ k) (hle : k ≤ 6) :
    side.Ample n n' := by
  cases side <;> simp only [Side.Ample] at h ⊢ <;> omega

/-- The side that has to manage can make the calls that only the second form makes. -/
theorem Side.Ample.pos {k : Nat} (h : side.Ample (n + 2) (n' + k)) (hk : k < 6)
    (hside : side = .first) : 0 < n' := by
  subst hside
  simp only [Side.Ample] at h
  omega

namespace Agrees

variable {R : Pairing → α → α' → Prop}

/-- Where one of the two cannot make a call, it is the one that may run out of them. -/
theorem atZero {p : Nat → Eval α} {q : Nat → Eval α'} (hp : p 0 = Eval.overflow)
    (hq : q 0 = Eval.overflow) (h : side.Ample n n') (hzero : n = 0 ∨ n' = 0) :
    Agrees side τ (p n) M (q n') N R := by
  cases side with
  | first =>
    obtain rfl : n = 0 := by simp only [Side.Ample] at h; omega
    exact .short ⟨M, by rw [hp]; rfl⟩
  | second =>
    obtain rfl : n' = 0 := by simp only [Side.Ample] at h; omega
    exact .short ⟨N, by rw [hq]; rfl⟩

/-- A call that only the second computation makes. -/
theorem called {p : Eval α} {q : Nat → Eval α'} (hq : q 0 = Eval.overflow)
    (hpos : side = .first → 0 < n')
    (h : ∀ k, n' = k + 1 → Agrees side τ p M (q (k + 1)) N R) : Agrees side τ p M (q n') N R := by
  cases n' with
  | zero =>
    cases side with
    | first => exact absurd (hpos rfl) (Nat.lt_irrefl 0)
    | second => exact .short ⟨N, by rw [hq]; rfl⟩
  | succ k => exact h k rfl

end Agrees

/-- Whatever is evaluated or executed with these numbers of nested calls agrees. -/
structure AgreesAll (host : Host) (side : Side) (n n' : Nat) : Prop where
  evaluate : ∀ {τ : Pairing} {Γ : Padding} {M N : Machine} {e e' : Expr}, Meets τ Γ M N →
    e.Lifts Γ e' → Agrees side τ (Eval.evaluate host n e) M (Eval.evaluate host n' e') N
      Value.Aligned
  evaluateBinary : ∀ {τ : Pairing} {Γ : Padding} {M N : Machine} {left left' right right' : Expr}
    (operator : Token), Meets τ Γ M N → left.Lifts Γ left' → right.Lifts Γ right' →
    Agrees side τ (Eval.evaluateBinary host n left operator right) M
      (Eval.evaluateBinary host n' left' operator right') N Value.Aligned
  evaluateAssignment : ∀ {τ : Pairing} {Γ : Padding} {M N : Machine} {value value' : Expr}
    (r : Reference), Meets τ Γ M N → value.Lifts Γ value' →
    Agrees side τ (Eval.evaluateAssignment host n r value) M
      (Eval.evaluateAssignment host n' (r.lifted Γ) value') N Value.Aligned
  evaluatePropertyAssignment : ∀ {τ : Pairing} {Γ : Padding} {M N : Machine}
    {object object' value value' : Expr} (name : Token), Meets τ Γ M N → object.Lifts Γ object' →
    value.Lifts Γ value' →
    Agrees side τ (Eval.evaluatePropertyAssignment host n object name value) M
      (Eval.evaluatePropertyAssignment host n' object' name value') N Value.Aligned
  evaluateCall : ∀ {τ : Pairing} {Γ : Padding} {M N : Machine} {callee callee' : Expr}
    {arguments arguments' : List Expr} (paren : Token), Meets τ Γ M N → callee.Lifts Γ callee' →
    List.Forall₂ (Expr.Lifts Γ) arguments arguments' →
    Agrees side τ (Eval.evaluateCall host n callee paren arguments) M
      (Eval.evaluateCall host n' callee' paren arguments') N Value.Aligned
  evaluateArguments : ∀ {τ : Pairing} {Γ : Padding} {M N : Machine}
    {arguments arguments' : List Expr}, Meets τ Γ M N →
    List.Forall₂ (Expr.Lifts Γ) arguments arguments' →
    Agrees side τ (Eval.evaluateArguments host n arguments) M
      (Eval.evaluateArguments host n' arguments') N fun τ ↦ List.Forall₂ (Value.Aligned τ)
  call : ∀ {τ : Pairing} {Γ : Padding} {M N : Machine} {V V' : Value} {Vs Ws : List Value},
    Meets τ Γ M N → V.Aligned τ V' → List.Forall₂ (Value.Aligned τ) Vs Ws →
    Agrees side τ (Eval.call host n V Vs) M (Eval.call host n' V' Ws) N Value.Aligned
  callFunction : ∀ {τ : Pairing} {Γ : Padding} {M N : Machine} {F G : Closure}
    {Vs Ws : List Value}, Meets τ Γ M N → F.Aligned τ G → List.Forall₂ (Value.Aligned τ) Vs Ws →
    Agrees side τ (Eval.callFunction host n F Vs) M (Eval.callFunction host n' G Ws) N
      Value.Aligned
  execute : ∀ {τ : Pairing} {Γ : Padding} {M N : Machine} {st st' : Stmt}, Meets τ Γ M N →
    st.Pads Γ st' → Agrees side τ (Eval.execute host n st) M (Eval.execute host n' st') N
      fun _ _ _ ↦ True
  executeBlock : ∀ {τ : Pairing} {Γ : Padding} {M N : Machine} {body body' : List Stmt},
    Meets τ Γ M N → Stmt.RowPads (false :: Γ) body body' →
    Agrees side τ (Eval.executeBlock host n body) M (Eval.executeBlock host n' body') N
      fun _ _ _ ↦ True
  executeFor : ∀ {τ : Pairing} {Γ : Padding} {M N : Machine}
    {initializer initializer' : Option Stmt}
    {condition condition' increment increment' : Option Expr} {body body' : Stmt}, Meets τ Γ M N →
    Stmt.OptionPads (false :: Γ) initializer initializer' →
    Option.Rel (Expr.Lifts (false :: Γ)) condition condition' →
    Option.Rel (Expr.Lifts (false :: Γ)) increment increment' → body.Pads (false :: Γ) body' →
    Agrees side τ (Eval.executeFor host n initializer condition increment body) M
      (Eval.executeFor host n' initializer' condition' increment' body') N fun _ _ _ ↦ True

namespace AgreesAll

/-! ## Expressions -/

theorem evaluate_succ (ih : AgreesAll host side n n') (h : Meets τ Γ M N) {e e' : Expr}
    (he : e.Lifts Γ e') : Agrees side τ (Eval.evaluate host (n + 1) e) M
      (Eval.evaluate host (n' + 1) e') N Value.Aligned := by
  cases he <;> rw [Eval.evaluate, Eval.evaluate]
  case literal value => exact .pure h.aligned (.toValue value)
  case group hinner => exact ih.evaluate h hinner
  case unary operator _ _ hoperand =>
    exact (ih.evaluate h hoperand).bind h fun h₁ _ hV ↦ .ofExcept h₁.aligned (hV.unary operator)
  case binary operator _ _ hleft hright => exact ih.evaluateBinary operator h hleft hright
  case logical hleft hright =>
    refine (ih.evaluate h hleft).bind h fun h₁ _ hV ↦ ?_
    rw [hV.isTruthy_eq]
    split
    · exact .pure h₁.aligned hV
    · exact ih.evaluate h₁ hright
  case var r => exact .lookup h r
  case property _ _ name hobject =>
    exact (ih.evaluate h hobject).bind h fun h₁ _ hV ↦ .property h₁ hV name
  case assign r _ _ hvalue => exact ih.evaluateAssignment r h hvalue
  case setProperty _ _ name _ _ hobject hvalue =>
    exact ih.evaluatePropertyAssignment name h hobject hvalue
  case call paren _ _ hcallee harguments => exact ih.evaluateCall paren h hcallee harguments
  case self r => exact .lookup h r
  case inherited r method hr => exact .inherited h method hr

theorem evaluateBinary_succ (ih : AgreesAll host side n n') (h : Meets τ Γ M N)
    {left left' right right' : Expr} (operator : Token) (hleft : left.Lifts Γ left')
    (hright : right.Lifts Γ right') :
    Agrees side τ (Eval.evaluateBinary host (n + 1) left operator right) M
      (Eval.evaluateBinary host (n' + 1) left' operator right') N Value.Aligned := by
  rw [Eval.evaluateBinary, Eval.evaluateBinary]
  refine (ih.evaluate h hleft).bind h fun h₁ _ hV ↦ (ih.evaluate h₁ hright).bind h₁
    fun h₂ hwithin hW ↦ ?_
  exact .ofExcept h₂.aligned ((hV.mono hwithin).binary operator hW)

theorem evaluateAssignment_succ (ih : AgreesAll host side n n') (h : Meets τ Γ M N)
    {value value' : Expr} (r : Reference) (hvalue : value.Lifts Γ value') :
    Agrees side τ (Eval.evaluateAssignment host (n + 1) r value) M
      (Eval.evaluateAssignment host (n' + 1) (r.lifted Γ) value') N Value.Aligned := by
  rw [Eval.evaluateAssignment, Eval.evaluateAssignment]
  refine (ih.evaluate h hvalue).bind h fun h₁ _ hV ↦ (Agrees.assign h₁ r hV).bind h₁
    fun h₂ hwithin _ ↦ ?_
  exact .pure h₂.aligned (hV.mono hwithin)

theorem evaluatePropertyAssignment_succ (ih : AgreesAll host side n n') (h : Meets τ Γ M N)
    {object object' value value' : Expr} (name : Token) (hobject : object.Lifts Γ object')
    (hvalue : value.Lifts Γ value') :
    Agrees side τ (Eval.evaluatePropertyAssignment host (n + 1) object name value) M
      (Eval.evaluatePropertyAssignment host (n' + 1) object' name value') N Value.Aligned := by
  rw [Eval.evaluatePropertyAssignment, Eval.evaluatePropertyAssignment]
  refine (ih.evaluate h hvalue).bind h fun h₁ _ hW ↦ (ih.evaluate h₁ hobject).bind h₁
    fun h₂ hwithin hV ↦ ?_
  refine (Agrees.setProperty h₂ hV name (hW.mono hwithin)).bind h₂ fun h₃ hwithin' _ ↦ ?_
  exact .pure h₃.aligned ((hW.mono hwithin).mono hwithin')

theorem evaluateArguments_succ (ih : AgreesAll host side n n') (h : Meets τ Γ M N)
    {arguments arguments' : List Expr}
    (harguments : List.Forall₂ (Expr.Lifts Γ) arguments arguments') :
    Agrees side τ (Eval.evaluateArguments host (n + 1) arguments) M
      (Eval.evaluateArguments host (n' + 1) arguments') N
      fun τ ↦ List.Forall₂ (Value.Aligned τ) := by
  rw [Eval.evaluateArguments, Eval.evaluateArguments]
  exact .mapM (fun _ _ _ _ hτ hV ↦ hV.mono hτ) (fun _ _ he _ _ _ h₁ ↦ ih.evaluate h₁ he)
    harguments h

theorem evaluateCall_succ (ih : AgreesAll host side n n') (h : Meets τ Γ M N)
    {callee callee' : Expr} {arguments arguments' : List Expr} (paren : Token)
    (hcallee : callee.Lifts Γ callee')
    (harguments : List.Forall₂ (Expr.Lifts Γ) arguments arguments') :
    Agrees side τ (Eval.evaluateCall host (n + 1) callee paren arguments) M
      (Eval.evaluateCall host (n' + 1) callee' paren arguments') N Value.Aligned := by
  rw [Eval.evaluateCall, Eval.evaluateCall]
  refine (ih.evaluate h hcallee).bind h fun h₁ _ hV ↦ (ih.evaluateArguments h₁ harguments).bind h₁
    fun h₂ hwithin hVs ↦ ?_
  rw [hVs.length_eq]
  refine (Agrees.checkCall h₂.aligned (hV.mono hwithin) paren _).bind h₂ fun h₃ hwithin' _ ↦ ?_
  exact ih.call h₃ ((hV.mono hwithin).mono hwithin') (hVs.imp fun _ _ hW ↦ hW.mono hwithin')

/-! ## Calls -/

theorem callFunction_succ (ih : AgreesAll host side n n') (h : Meets τ Γ M N) {F G : Closure}
    {Vs Ws : List Value} (hF : F.Aligned τ G) (hVs : List.Forall₂ (Value.Aligned τ) Vs Ws) :
    Agrees side τ (Eval.callFunction host (n + 1) F Vs) M (Eval.callFunction host (n' + 1) G Ws) N
      Value.Aligned := by
  obtain ⟨-, Γ', hchains, hcode⟩ := hF
  have hframe : (Bindings.ofList ((F.declaration.parameters.map Token.lexeme).zip Vs)).Related
      (Value.Aligned τ) (.ofList ((G.declaration.parameters.map Token.lexeme).zip Ws)) := by
    rw [hcode.parameters_eq]
    exact Bindings.related_ofList (Bindings.forall₂_zip hVs _)
  rw [Eval.callFunction, Eval.callFunction]
  simp only [Lexical.Lockstep.catchReturn_within]
  exact .enclosed h.aligned hchains hframe fun h₁ _ ↦ (ih.execute h₁ hcode.body).catchReturn

theorem call_succ (ih : AgreesAll host side n n') (h : Meets τ Γ M N) {V V' : Value}
    {Vs Ws : List Value} (hV : V.Aligned τ V') (hVs : List.Forall₂ (Value.Aligned τ) Vs Ws) :
    Agrees side τ (Eval.call host (n + 1) V Vs) M (Eval.call host (n' + 1) V' Ws) N
      Value.Aligned := by
  cases hV <;> rw [Eval.call.eq_def, Eval.call.eq_def]
  case native native => exact .callNative h.aligned host native hVs
  case function hF => exact ih.callFunction h hF hVs
  case «class» C D hC =>
    refine (Agrees.newInstance h.aligned hC).bind h fun h₁ hwithin hi ↦ ?_
    have hinit := (hC.mono hwithin).findMethod? initializerName
    generalize C.findMethod? initializerName = F at hinit
    generalize D.findMethod? initializerName = G at hinit
    cases hinit with
    | none => exact .pure h₁.aligned hi
    | some hF =>
      refine (Agrees.bindMethod h₁ hF hi).bind h₁ fun h₂ hwithin' hf ↦ ?_
      refine (ih.call h₂ (.function hf) (hVs.imp fun _ _ hW ↦ (hW.mono hwithin).mono hwithin')).bind
        h₂ fun h₃ hwithin'' _ ↦ ?_
      exact .pure h₃.aligned ((hi.mono hwithin').mono hwithin'')
  all_goals exact .throw h.aligned .stuck

/-! ## Statements -/

/-- A row of statements. -/
theorem row (ih : AgreesAll host side n n') {body body' : List Stmt} (h : Meets τ Γ M N)
    (hbody : Stmt.RowPads Γ body body') :
    Agrees side τ (body.forM (Eval.execute host n)) M (body'.forM (Eval.execute host n')) N
      fun _ _ _ ↦ True := by
  induction body generalizing body' τ M N with
  | nil =>
    cases hbody
    exact .pure h.aligned trivial
  | cons st body ih' =>
    cases hbody with
    | cons hst hrest => exact (ih.execute h hst).bind h fun h₁ _ _ ↦ ih' h₁ hrest

theorem executeBlock_succ (ih : AgreesAll host side n n') (h : Meets τ Γ M N)
    {body body' : List Stmt} (hbody : Stmt.RowPads (false :: Γ) body body') :
    Agrees side τ (Eval.executeBlock host (n + 1) body) M (Eval.executeBlock host (n' + 1) body') N
      fun _ _ _ ↦ True := by
  rw [Eval.executeBlock, Eval.executeBlock]
  exact .get (.enclosed h.aligned h.chains Bindings.related_empty fun h₁ _ ↦ ih.row h₁ hbody)

/-- Whether another round of a for statement is made. -/
theorem holds (ih : AgreesAll host side n n') (h : Meets τ Γ M N)
    {condition condition' : Option Expr} :
    Option.Rel (Expr.Lifts Γ) condition condition' →
    Agrees side τ
      (match condition with
        | some e => do return (← Eval.evaluate host n e).isTruthy
        | none => return true : Eval Bool) M
      (match condition' with
        | some e => do return (← Eval.evaluate host n' e).isTruthy
        | none => return true : Eval Bool) N fun _ b b' ↦ b = b' := by
  intro hcondition
  cases hcondition with
  | none => exact .pure h.aligned rfl
  | some he =>
    exact (ih.evaluate h he).bind h fun h₁ _ hV ↦ .pure h₁.aligned hV.isTruthy_eq

/-- The rounds of a for statement, once its variable is declared. -/
theorem rounds (ih : AgreesAll host side n n') (h : Meets τ Γ M N)
    {condition condition' increment increment' : Option Expr} {body body' : Stmt} :
    Option.Rel (Expr.Lifts Γ) condition condition' →
    Option.Rel (Expr.Lifts Γ) increment increment' → body.Pads Γ body' →
    Agrees side τ
      (Eval.repeatWhile (do
        if ← (match condition with
          | some e => do return (← Eval.evaluate host n e).isTruthy
          | none => return true : Eval Bool) then
          Eval.execute host n body
          if let some e := increment then
            let _ ← Eval.evaluate host n e
          return true
        else return false) host.rounds) M
      (Eval.repeatWhile (do
        if ← (match condition' with
          | some e => do return (← Eval.evaluate host n' e).isTruthy
          | none => return true : Eval Bool) then
          Eval.execute host n' body'
          if let some e := increment' then
            let _ ← Eval.evaluate host n' e
          return true
        else return false) host.rounds) N fun _ _ _ ↦ True := by
  intro hcondition hincrement hbody
  refine .repeatWhile (fun h₁ ↦ (ih.holds h₁ hcondition).bind h₁ fun {_ _ _ b b'} h₂ _ hb ↦ ?_)
    host.rounds h
  subst hb
  cases b with
  | false => exact .pure h₂.aligned rfl
  | true =>
    refine (ih.execute h₂ hbody).bind h₂ fun h₃ _ _ ↦ ?_
    cases hincrement with
    | none => exact .pure h₃.aligned rfl
    | some he => exact (ih.evaluate h₃ he).bind h₃ fun h₄ _ _ ↦ .pure h₄.aligned rfl

theorem executeFor_succ (ih : AgreesAll host side n n') (h : Meets τ Γ M N)
    {initializer initializer' : Option Stmt}
    {condition condition' increment increment' : Option Expr}
    {body body' : Stmt} (hinitializer : Stmt.OptionPads (false :: Γ) initializer initializer')
    (hcondition : Option.Rel (Expr.Lifts (false :: Γ)) condition condition')
    (hincrement : Option.Rel (Expr.Lifts (false :: Γ)) increment increment')
    (hbody : body.Pads (false :: Γ) body') :
    Agrees side τ (Eval.executeFor host (n + 1) initializer condition increment body) M
      (Eval.executeFor host (n' + 1) initializer' condition' increment' body') N
      fun _ _ _ ↦ True := by
  rw [Eval.executeFor.eq_def, Eval.executeFor.eq_def]
  refine .get (.enclosed h.aligned h.chains Bindings.related_empty fun h₁ _ ↦ ?_)
  cases hinitializer with
  | none => exact ih.rounds h₁ hcondition hincrement hbody
  | some hst =>
    exact (ih.execute h₁ hst).bind h₁ fun h₂ _ _ ↦ ih.rounds h₂ hcondition hincrement hbody

/-! ## The loop -/

section Unrolled

variable {condition condition' increment increment' : Option Expr} {body body' : Stmt}
  (hlimit : host.maxSteps = none)

include hlimit

/-- The body and the increment, in a block on the second side. -/
theorem blockRound (ih : ∀ m', side.Ample n m' → AgreesAll host side n m') (h : Meets τ Γ M N) :
    side.Ample (n + 2) (n' + 3) →
    Option.Rel (Expr.Lifts (true :: Γ)) increment increment' → body.Pads (true :: Γ) body' →
    Agrees side τ
      (do
        Eval.execute host n body
        if let some e := increment then
          let _ ← Eval.evaluate host n e) M
      (Eval.execute host n' (.block (body' :: increment'.toList.map .expression))) N
      fun _ _ _ ↦ True := by
  intro hample hincrement hbody
  refine .called (q := fun k ↦ Eval.execute host k _) rfl (hample.pos (by decide)) fun k hk ↦ ?_
  subst hk
  rw [Eval.execute]
  refine .stepSecond h hlimit fun h₁ ↦
    .called (q := fun l ↦ Eval.executeBlock host l _) rfl (hample.pos (k := 4) (by decide))
      fun l hl ↦ ?_
  subst hl
  rw [Eval.executeBlock]
  refine .of_eq (.enclosedSecond h₁ fun h₂ ↦ ?_) rfl rfl
  have ih₂ := ih l (@Side.Ample.unrolled side n l 5 hample (by decide) (by decide))
  refine (ih₂.execute h₂ hbody).bind h₂ fun {τ₃ M₃ N₃ _ _} h₃ _ _ ↦ ?_
  cases hincrement with
  | none => exact .pure h₃.aligned trivial
  | @some e e' he =>
    have hstatement : Agrees side τ₃ (Eval.evaluate host n e) M₃
        (Eval.execute host l (.expression e')) N₃ fun _ _ _ ↦ True := by
      refine .called (q := fun r ↦ Eval.execute host r _) rfl (hample.pos (k := 5) (by decide))
        fun r hr ↦ ?_
      subst hr
      rw [Eval.execute]
      refine .stepSecond h₃ hlimit fun h₄ ↦ ?_
      have ih₄ := ih r (@Side.Ample.unrolled side n r 6 hample (by decide) (by decide))
      rw [← bind_pure (Eval.evaluate host n e)]
      exact (ih₄.evaluate h₄ he).bind h₄ fun h₅ _ _ ↦ .pure h₅.aligned trivial
    exact hstatement.bind h₃ fun h₄ _ _ ↦ .pure h₄.aligned trivial

omit hlimit in
/-- Whether another round is made. Where there is no condition, the loop evaluates a literal. -/
theorem holdsUnrolled (ih : ∀ m', side.Ample n m' → AgreesAll host side n m') (h : Meets τ Γ M N) :
    side.Ample (n + 2) (n' + 3) → Option.Rel (Expr.Lifts Γ) condition condition' →
    Agrees side τ
      (match condition with
        | some e => do return (← Eval.evaluate host n e).isTruthy
        | none => return true : Eval Bool) M
      (Eval.evaluate host n' (condition'.getD (.literal (.bool true)))) N
      fun _ b V ↦ b = V.isTruthy := by
  intro hample hcondition
  cases hcondition with
  | none =>
    exact .called (q := fun k ↦ Eval.evaluate host k _) rfl (hample.pos (by decide))
      fun _ _ ↦ .pure h.aligned rfl
  | some he =>
    rw [Option.getD_some, ← bind_pure (Eval.evaluate host n' _)]
    exact ((ih n' (hample.unrolled (by decide) (by decide))).evaluate h he).bind h
      fun h₁ _ hV ↦ .pure h₁.aligned hV.isTruthy_eq

/-- The rounds of a for statement and those of its loop. -/
theorem roundsUnrolled (ih : ∀ m', side.Ample n m' → AgreesAll host side n m') (h : Meets τ Γ M N) :
    side.Ample (n + 2) (n' + 2) →
    Option.Rel (Expr.Lifts Γ) condition condition' →
    Option.Rel (Expr.Lifts (true :: Γ)) increment increment' → body.Pads (true :: Γ) body' →
    Agrees side τ
      (Eval.repeatWhile (do
        if ← (match condition with
          | some e => do return (← Eval.evaluate host n e).isTruthy
          | none => return true : Eval Bool) then
          Eval.execute host n body
          if let some e := increment then
            let _ ← Eval.evaluate host n e
          return true
        else return false) host.rounds) M
      (Eval.execute host n' (.loop (condition'.getD (.literal (.bool true)))
        (.block (body' :: increment'.toList.map .expression)))) N fun _ _ _ ↦ True := by
  intro hample hcondition hincrement hbody
  refine .called (q := fun k ↦ Eval.execute host k _) rfl (hample.pos (by decide)) fun k hk ↦ ?_
  subst hk
  rw [Eval.execute]
  have hround : ∀ {τ : Pairing} {M N : Machine}, Meets τ Γ M N → Agrees side τ
      (do
        Eval.execute host n body
        if let some e := increment then
          let _ ← Eval.evaluate host n e
        return true) M
      (do
        Eval.execute host k (.block (body' :: increment'.toList.map .expression))
        return true) N fun _ b b' ↦ b = b' := by
    intro τ M N h
    refine .of_eq ((blockRound hlimit ih h hample hincrement hbody).bind h
      fun h₁ _ _ ↦ .pure h₁.aligned rfl) ?_ rfl
    cases increment <;> simp only [bind_assoc, pure_bind]
  refine .stepSecond h hlimit fun h₁ ↦ .repeatWhile (fun h₂ ↦ ?_) host.rounds h₁
  refine (holdsUnrolled ih h₂ hample hcondition).bind h₂ fun {_ _ _ b V} h₃ _ hb ↦ ?_
  subst hb
  cases V.isTruthy with
  | true => exact hround h₃
  | false => exact .pure h₃.aligned rfl

/-- A for statement and the block around its loop. -/
theorem executeUnrolled (ih : ∀ m m', m < n → side.Ample m m' → AgreesAll host side m m')
    (h : Meets τ Γ M N) {initializer initializer' : Option Stmt} :
    side.Ample (n + 1) (n' + 1) → Stmt.OptionPads (false :: Γ) initializer initializer' →
    Option.Rel (Expr.Lifts (false :: Γ)) condition condition' →
    Option.Rel (Expr.Lifts (true :: false :: Γ)) increment increment' →
    body.Pads (true :: false :: Γ) body' →
    Agrees side τ (Eval.executeFor host n initializer condition increment body) M
      (Eval.executeBlock host n' (initializer'.toList ++
        [.loop (condition'.getD (.literal (.bool true)))
          (.block (body' :: increment'.toList.map .expression))])) N fun _ _ _ ↦ True := by
  intro hample hinitializer hcondition hincrement hbody
  cases n with
  | zero =>
    exact .atZero (p := fun n ↦ Eval.executeFor host n _ _ _ _)
      (q := fun n' ↦ Eval.executeBlock host n' _) rfl rfl hample.pred (.inl rfl)
  | succ n =>
  cases n' with
  | zero =>
    exact .atZero (p := fun n ↦ Eval.executeFor host n _ _ _ _)
      (q := fun n' ↦ Eval.executeBlock host n' _) rfl rfl hample.pred (.inr rfl)
  | succ n' =>
  have ihBelow : ∀ m', side.Ample n m' → AgreesAll host side n m' :=
    fun m' h ↦ ih n m' (Nat.lt_succ_self n) h
  rw [Eval.executeFor.eq_def, Eval.executeBlock]
  refine .get (.enclosed h.aligned h.chains Bindings.related_empty fun h₁ _ ↦ ?_)
  cases hinitializer with
  | none =>
    exact .of_eq (roundsUnrolled hlimit ihBelow h₁ hample hcondition hincrement hbody) rfl
      (congrFun bind_pure_unit _)
  | some hst =>
    have ih₁ := ihBelow n' (@Side.Ample.unrolled side n n' 2 hample (by decide) (by decide))
    refine (ih₁.execute h₁ hst).bind h₁ fun h₂ _ _ ↦ ?_
    exact .of_eq (roundsUnrolled hlimit ihBelow h₂ hample hcondition hincrement hbody) rfl
      (congrFun bind_pure_unit _)

end Unrolled

/-! ## Everything -/

theorem execute_succ (hlimit : host.maxSteps = none)
    (ih : ∀ m m', m ≤ n → side.Ample m m' → AgreesAll host side m m')
    (hample : side.Ample (n + 1) (n' + 1)) (h : Meets τ Γ M N) {st st' : Stmt}
    (hst : st.Pads Γ st') :
    Agrees side τ (Eval.execute host (n + 1) st) M (Eval.execute host (n' + 1) st') N
      fun _ _ _ ↦ True := by
  have ih₁ := ih n n' (Nat.le_refl n) hample.pred
  rw [Eval.execute.eq_def, Eval.execute.eq_def]
  refine (Agrees.stepBoth h.aligned hlimit).bind h fun {τ M N _ _} h _ _ ↦ ?_
  cases hst with
  | expression hvalue =>
    exact (ih₁.evaluate h hvalue).bind h fun h₁ _ _ ↦ .pure h₁.aligned trivial
  | print hvalue =>
    refine (ih₁.evaluate h hvalue).bind h fun h₁ _ hV ↦ ?_
    rw [hV.text_eq]
    exact .printLine h₁.aligned _
  | var hopen hinitializer =>
    cases hinitializer with
    | none => exact .define h hopen _ .nil
    | some he => exact (ih₁.evaluate h he).bind h fun h₁ _ hV ↦ .define h₁ hopen _ hV
  | block hbody => exact ih₁.executeBlock h hbody
  | branch hcondition hyes hno =>
    refine (ih₁.evaluate h hcondition).bind h fun {_ _ _ V V'} h₁ _ hV ↦ ?_
    rw [hV.isTruthy_eq]
    cases V'.isTruthy with
    | true => exact ih₁.execute h₁ hyes
    | false =>
      cases hno with
      | none => exact .pure h₁.aligned trivial
      | some hno => exact ih₁.execute h₁ hno
  | loop hcondition hbody =>
    refine .repeatWhile (fun h₁ ↦ ?_) host.rounds h
    refine (ih₁.evaluate h₁ hcondition).bind h₁ fun {_ _ _ V V'} h₂ _ hV ↦ ?_
    rw [hV.isTruthy_eq]
    cases V'.isTruthy with
    | true => exact (ih₁.execute h₂ hbody).bind h₂ fun h₃ _ _ ↦ .pure h₃.aligned rfl
    | false => exact .pure h₂.aligned rfl
  | forLoop hinitializer hcondition hincrement hbody =>
    exact ih₁.executeFor h hinitializer hcondition hincrement hbody
  | unrolled hinitializer hcondition hincrement hbody =>
    exact executeUnrolled hlimit (fun m m' hm h ↦ ih m m' (Nat.le_of_lt hm) h) h hample hinitializer
      hcondition hincrement hbody
  | function hopen hf =>
    refine .get ((Agrees.newFunction h h.chains hf).bind h fun h₁ _ hF ↦ ?_)
    rw [hf.name_eq]
    exact .define h₁ hopen _ (.function hF)
  | «return» hvalue =>
    cases hvalue with
    | none => exact .throw h.aligned (.returning .nil)
    | some he => exact (ih₁.evaluate h he).bind h fun h₁ _ hV ↦ .throw h₁.aligned (.returning hV)
  | @«class» _ name superclass methods methods' hopen hmethods =>
    cases superclass with
    | none => exact .defineClass h hopen _ .none hmethods
    | some r =>
      refine Agrees.bind (R := fun τ ↦ Option.Rel (Class.Aligned τ)) h
        ((Agrees.superclass h r).map h fun _ _ _ hC ↦ .some hC) fun h₁ _ hC ↦ ?_
      exact .defineClass h₁ hopen _ hC hmethods

/-- Where one of the two cannot make a call. -/
theorem of_zero (hample : side.Ample n n') (hzero : n = 0 ∨ n' = 0) : AgreesAll host side n n' where
  evaluate _ _ := .atZero (p := fun n ↦ Eval.evaluate host n _)
    (q := fun n' ↦ Eval.evaluate host n' _) rfl rfl hample hzero
  evaluateBinary _ _ _ _ := .atZero (p := fun n ↦ Eval.evaluateBinary host n _ _ _)
    (q := fun n' ↦ Eval.evaluateBinary host n' _ _ _) rfl rfl hample hzero
  evaluateAssignment _ _ _ := .atZero (p := fun n ↦ Eval.evaluateAssignment host n _ _)
    (q := fun n' ↦ Eval.evaluateAssignment host n' _ _) rfl rfl hample hzero
  evaluatePropertyAssignment _ _ _ _ := .atZero
    (p := fun n ↦ Eval.evaluatePropertyAssignment host n _ _ _)
    (q := fun n' ↦ Eval.evaluatePropertyAssignment host n' _ _ _) rfl rfl hample hzero
  evaluateCall _ _ _ _ := .atZero (p := fun n ↦ Eval.evaluateCall host n _ _ _)
    (q := fun n' ↦ Eval.evaluateCall host n' _ _ _) rfl rfl hample hzero
  evaluateArguments _ _ := .atZero (p := fun n ↦ Eval.evaluateArguments host n _)
    (q := fun n' ↦ Eval.evaluateArguments host n' _) rfl rfl hample hzero
  call _ _ _ := .atZero (p := fun n ↦ Eval.call host n _ _)
    (q := fun n' ↦ Eval.call host n' _ _) rfl rfl hample hzero
  callFunction _ _ _ := .atZero (p := fun n ↦ Eval.callFunction host n _ _)
    (q := fun n' ↦ Eval.callFunction host n' _ _) rfl rfl hample hzero
  execute _ _ := .atZero (p := fun n ↦ Eval.execute host n _)
    (q := fun n' ↦ Eval.execute host n' _) rfl rfl hample hzero
  executeBlock _ _ := .atZero (p := fun n ↦ Eval.executeBlock host n _)
    (q := fun n' ↦ Eval.executeBlock host n' _) rfl rfl hample hzero
  executeFor _ _ _ _ _ := .atZero (p := fun n ↦ Eval.executeFor host n _ _ _ _)
    (q := fun n' ↦ Eval.executeFor host n' _ _ _ _) rfl rfl hample hzero

end AgreesAll

/-- Whatever is evaluated or executed agrees, if there are enough nested calls. -/
theorem agreesAll (hlimit : host.maxSteps = none) (hample : side.Ample n n') :
    AgreesAll host side n n' := by
  induction n using Nat.strongRecOn generalizing n' with
  | _ n ihBelow =>
    cases n with
    | zero => exact .of_zero hample (.inl rfl)
    | succ n =>
    cases n' with
    | zero => exact .of_zero hample (.inr rfl)
    | succ n' =>
    have ih : AgreesAll host side n n' := ihBelow n (Nat.lt_succ_self n) hample.pred
    exact {
      evaluate := fun h ↦ ih.evaluate_succ h
      evaluateBinary := fun operator h ↦ ih.evaluateBinary_succ h operator
      evaluateAssignment := fun r h ↦ ih.evaluateAssignment_succ h r
      evaluatePropertyAssignment := fun name h ↦ ih.evaluatePropertyAssignment_succ h name
      evaluateCall := fun paren h ↦ ih.evaluateCall_succ h paren
      evaluateArguments := fun h ↦ ih.evaluateArguments_succ h
      call := fun h ↦ ih.call_succ h
      callFunction := fun h ↦ ih.callFunction_succ h
      execute := fun h ↦ AgreesAll.execute_succ hlimit
        (fun m m' hm h ↦ ihBelow m (Nat.lt_succ_of_le hm) h) hample h
      executeBlock := fun h ↦ ih.executeBlock_succ h
      executeFor := fun h ↦ ih.executeFor_succ h }

end Lox
