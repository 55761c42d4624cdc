import Lox.Proofs.Lexical.Simulation.Expression

/-!
# Calling in lockstep

A call opens a frame for the parameters. On the other side each parameter gets a location of its
own, and the names that the function has kept are extended by them.
-/

namespace Lox.Lexical

variable {excused : String → Prop} {inside : Bool} {β : Placement} {M : Lox.Machine} {μ : Machine}
  {ctx : Context}
  {scope : Scope} {host : Host} {nesting : Nat}

/-! ## New frames -/

theorem scope_within (β : Placement) (ctx : Context) (id : RecordId) (env : Environment) :
    Scope.within (β.names ctx env) = β.scope (.names [] :: ctx) (id :: env) := by
  rw [Placement.scope, Scope.within]
  congr 1

/-- Right after a frame was made that is going to be the current one, nothing is declared in it. -/
theorem Meets.enter (h : Matches excused β M μ) (hproper : ctx.Proper) {env : Environment}
    (hplaced : Placed β ctx env) {names : Names} (hnames : names = β.names ctx env) :
    Meets excused β (.names [] :: ctx) (.within names)
      { M with frames := M.frames.push .empty, current := M.frames.next :: env } μ := by
  have hagree := h.push
  refine ⟨{ hagree with }, .names (List.forall_mem_nil _) hproper, trivial,
    .layer (fun x hx ↦ absurd hx (by simp [Layer.binds])) hplaced, ⟨h.frames, ?_, ?_⟩,
    hnames ▸ scope_within ..⟩
  · rw [Store.next_push]
    exact Nat.lt_succ_self _
  · intro x hx
    rw [h.fresh x] at hx
    cases hx

/-- The order of the names that are declared in a scope does not matter. -/
theorem Meets.reorder {xs ys : List String} (h : Meets excused β (.names xs :: ctx) scope M μ)
    (hxs : ∀ x, x ∈ xs ↔ x ∈ ys) : Meets excused β (.names ys :: ctx) scope M μ := by
  obtain ⟨hagree, hproper, -, hplaced, hhead, hscope⟩ := h
  have hbinds : ∀ x, (Layer.names xs).binds x = (Layer.names ys).binds x := fun x ↦ by
    simp [Layer.binds, hxs x]
  have hnames : ∀ env, β.names (.names xs :: ctx) env = β.names (.names ys :: ctx) env := by
    intro env
    cases env with
    | nil => rfl
    | cons id env =>
      funext x
      rw [Placement.names, Placement.names, show (Layer.names xs).settles x = _ from hbinds x,
        hbinds x]
      rfl
  refine ⟨hagree, ?_, trivial, ?_, ?_, ?_⟩
  · cases hproper with
    | names hordinary h => exact .names (fun x hx ↦ hordinary x ((hxs x).mpr hx)) h
  · revert hplaced
    generalize M.current = env
    rintro (_ | ⟨hlayer, hplaced⟩)
    exact .layer (fun x hx ↦ hlayer x ((hbinds x).trans hx)) hplaced
  · revert hhead
    cases M.current with
    | nil => exact id
    | cons id env =>
      rintro ⟨hid, hlt, hexact⟩
      exact ⟨hid, hlt, fun x hx ↦ (hxs x).mp (hexact x hx)⟩
  · rw [hscope, Placement.scope, Placement.scope, hnames]
    rfl

/-- Names are bound in a new frame, and declared one after the other. -/
theorem exists_parameters {entries : List (String × Lox.Value)} {entries' : List (String × Value)}
    {b : Bindings Lox.Value} {xs : List String} {env : Environment}
    (hentries : List.Forall₂ (fun p q ↦ p.1 = q.1 ∧ ValueMatches excused β p.2 q.2)
      entries entries')
    (h : Meets excused β (.names xs :: ctx) scope
      { M with frames := M.frames.push b, current := M.frames.next :: env } μ)
    (hordinary : ∀ p ∈ entries, Ordinary p.1) (hnodup : (entries.map Prod.fst).Nodup)
    (hnew : ∀ p ∈ entries, p.1 ∉ xs) :
    ∃ β' μ' scope' ys,
      Eval.declareAll scope entries' μ = .ok scope' μ' ∧
      (∀ id < M.frames.next, β' id = β id) ∧ (∀ x, x ∈ ys ↔ x ∈ xs ∨ x ∈ entries.map Prod.fst) ∧
      Meets excused β' (.names ys :: ctx) scope'
        { M with
          frames := M.frames.push (entries.foldl (fun b e ↦ b.insert e.1 e.2) b)
          current := M.frames.next :: env } μ' := by
  induction entries generalizing entries' b xs scope β μ with
  | nil =>
    cases hentries
    exact ⟨β, μ, scope, xs, rfl, fun _ _ ↦ rfl, by simp, h⟩
  | cons p entries ih =>
    obtain ⟨x, V⟩ := p
    cases hentries with
    | @cons _ q _ entries' hp hentries =>
      obtain ⟨x', v⟩ := q
      obtain ⟨rfl, hV⟩ : x = x' ∧ ValueMatches excused β V v := hp
      rw [List.forall_mem_cons] at hordinary hnew
      rw [List.map_cons, List.nodup_cons] at hnodup
      have hstep : Lockstep excused false β (Lox.Eval.define x V) _
          (Eval.declare scope x fun _ ↦ v) μ _ :=
        .declare h hordinary.1 hnew.1 fun β' hβ' _ ↦ hV.mono hβ'
      have hdefine := Lox.Eval.define_of_current (M := { M with
        frames := M.frames.push b, current := M.frames.next :: env }) rfl x V
      simp only [Store.bind_push] at hdefine
      obtain ⟨β₁, scope₁, μ₁, hdeclare, hlater, hmeets⟩ := hstep.ok_of hdefine
      -- The names go into the new frame, so those of older frames stay where they are.
      have hsame : ∀ id < M.frames.next, β₁ id = β id := fun id hid ↦ hlater.same id
        (by simp only [Store.next_push]; exact Nat.lt_succ_of_lt hid)
        (by
          rw [List.head?_cons, ne_eq, Option.some.injEq]
          exact Nat.ne_of_gt hid)
      -- No parameter has the name of another one, so each is new in the frame.
      have hnew' : ∀ p ∈ entries, p.1 ∉ x :: xs := by
        intro p hp hmem
        rcases List.mem_cons.mp hmem with heq | hmem
        · exact hnodup.1 (List.mem_map.mpr ⟨p, hp, heq⟩)
        · exact hnew.2 p hp hmem
      obtain ⟨β', μ', scope', ys, hrest, hsame', hys, hmeets'⟩ := ih
        (hentries.imp fun _ _ ⟨hname, hV⟩ ↦ ⟨hname, hV.mono hlater.within⟩) hmeets hordinary.2
        hnodup.2 hnew'
      refine ⟨β', μ', scope', ys, ?_, fun id hid ↦ (hsame' id hid).trans (hsame id hid),
        fun y ↦ ?_, hmeets'⟩
      · rw [Eval.declareAll, List.foldlM_cons]
        exact (bind_of_ok hdeclare).trans hrest
      · rw [hys, List.mem_cons, List.map_cons, List.mem_cons]
        tauto

/-- Right after the arguments have been bound, the machines meet in the body of the function. -/
theorem exists_body (h : Matches excused β M μ) {F : Lox.Closure} {f : Closure}
    {Vs : List Lox.Value} {vs : List Value} (hF : ClosureMatches excused β F f)
    (hVs : List.Forall₂ (ValueMatches excused β) Vs vs)
    (harity : Vs.length = F.declaration.arity) :
    ∃ β₁ μ₁ scope₁ ctx₁,
      Eval.declareAll (.within f.names) ((F.declaration.parameters.map Token.lexeme).zip vs) μ
        = .ok scope₁ μ₁ ∧
      (∀ id < M.frames.next, β₁ id = β id) ∧
      Meets excused β₁ ctx₁ scope₁
        { M with
          frames := M.frames.push (.ofList ((F.declaration.parameters.map Token.lexeme).zip Vs))
          current := M.frames.next :: F.environment } μ₁ ∧
      F.declaration.body.Scoped excused true ctx₁ := by
  obtain ⟨-, -, ctx', hproper, hplaced, hscoped, hnames⟩ := hF
  obtain ⟨id, ⟨name, parameters, body⟩, env⟩ := F
  cases hscoped with
  | mk hnodup hordinary hbody hplain =>
    have hmap : ((parameters.map Token.lexeme).zip Vs).map Prod.fst
        = parameters.map Token.lexeme := by
      refine List.map_fst_zip ?_
      rw [List.length_map, harity]
      exact Nat.le_refl _
    have hordinary' : ∀ p ∈ (parameters.map Token.lexeme).zip Vs, Ordinary p.1 := by
      intro p hp
      have hmem : p.1 ∈ parameters.map Token.lexeme := hmap ▸ List.mem_map_of_mem hp
      obtain ⟨parameter, hparameter, heq⟩ := List.mem_map.mp hmem
      exact heq ▸ hordinary parameter hparameter
    have hnodup' : (((parameters.map Token.lexeme).zip Vs).map Prod.fst).Nodup := by
      rw [hmap]
      exact hnodup
    obtain ⟨β₁, μ₁, scope₁, ys, hdeclare, hsame, hys, hmeets⟩ := exists_parameters
      (Bindings.forall₂_zip hVs _) (.enter h hproper hplaced hnames) hordinary' hnodup'
      fun _ _ ↦ List.not_mem_nil
    exact ⟨β₁, μ₁, scope₁, _, hdeclare, hsame,
      hmeets.reorder fun x ↦ by rw [hys, hmap]; simp, hbody⟩

namespace Simulates

/-! ## Calls -/

theorem callFunction_succ (ih : Simulates excused host nesting) (h : Meets excused β ctx scope M μ)
    {F : Lox.Closure} {f : Closure} {Vs : List Lox.Value} {vs : List Value}
    (hF : ClosureMatches excused β F f) (hVs : List.Forall₂ (ValueMatches excused β) Vs vs)
    (harity : Vs.length = F.declaration.arity) :
    Lockstep excused inside β (Lox.Eval.callFunction host (nesting + 1) F Vs) M
      (Eval.callFunction host (nesting + 1) f vs) μ
      (Yields excused ctx scope (ValueMatches excused)) := by
  obtain ⟨β₁, μ₁, scope₁, ctx₁, hdeclare, hsame, hmeets, hbody⟩ := exists_body h.agree hF hVs harity
  rw [Lox.Eval.callFunction, Eval.callFunction, ← hF.declaration]
  -- The evaluator catches the return outside of the frame, and the lexical semantics has no frame.
  simp only [Lockstep.catchReturn_within]
  refine Lockstep.enclosed h hsame (bind_of_ok hdeclare) ?_
  have hrun : Lockstep excused true β₁ (Lox.Eval.execute host nesting F.declaration.body) _
      (do let _ ← Eval.execute host nesting scope₁ F.declaration.body) μ₁
      fun β' M' μ' _ _ ↦ Matches excused β' M' μ' :=
    (ih.execute hmeets hbody).andReturn fun _ _ _ _ _ h ↦ h.agree
  exact hrun.catchReturn fun _ _ _ _ _ h ↦ h

theorem call_succ (ih : Simulates excused host nesting) (h : Meets excused β ctx scope M μ)
    {V : Lox.Value} {v : Value} {Vs : List Lox.Value} {vs : List Value}
    (hV : ValueMatches excused β V v) (hVs : List.Forall₂ (ValueMatches excused β) Vs vs)
    (hsignature : ∃ name, V.signature? = some (name, Vs.length)) :
    Lockstep excused inside β (Lox.Eval.call host (nesting + 1) V Vs) M
      (Eval.call host (nesting + 1) v vs) μ (Yields excused ctx scope (ValueMatches excused)) := by
  obtain ⟨name, hname⟩ := hsignature
  cases hV <;> rw [Lox.Eval.call, Eval.call]
  case native n => exact .callNative h host n hVs
  case function hF =>
    obtain ⟨-, harity⟩ := Prod.mk.inj (Option.some.inj hname)
    exact ih.callFunction h hF hVs harity.symm
  case «class» C c hC =>
    obtain ⟨-, harity⟩ := Prod.mk.inj (Option.some.inj hname)
    refine (Lockstep.newInstance h hC).bind ?_
    rintro β₁ M₁ μ₁ I i hlater₁ ⟨h₁, hI⟩
    have hinit := (hC.mono hlater₁.within).findMethod? initializerName
    rw [Lox.Class.arity] at harity
    generalize C.findMethod? initializerName = F at hinit harity
    generalize c.findMethod? initializerName = f at hinit
    cases hinit with
    | none => exact .pure ⟨h₁, hI⟩
    | @some F f hF =>
      have hcall : Lockstep excused inside β₁ (Lox.Eval.bindMethod F (.instance I) >>= fun G ↦
            Lox.Eval.call host nesting (.function G) Vs) M₁
          (Eval.bindMethod f (.instance i) >>= fun g ↦ Eval.call host nesting (.function g) vs) μ₁
          (Yields excused ctx scope (ValueMatches excused)) := by
        refine (Lockstep.bindMethod h₁ hF hI ⟨_, rfl⟩).bind ?_
        rintro β₂ M₂ μ₂ G g hlater₂ ⟨h₂, hG, hdeclaration⟩
        exact ih.call h₂ (.function hG)
          (hVs.imp fun _ _ hW ↦ hW.mono (hlater₁.trans hlater₂).within)
          ⟨_, by rw [Lox.Value.signature?, hdeclaration, ← harity]⟩
      exact hcall.bind fun _ _ _ _ _ hlater h₃ ↦ .pure ⟨h₃.1, hI.mono hlater.within⟩
  all_goals cases hname

end Simulates

end Lox.Lexical
