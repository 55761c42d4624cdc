import Lox.Proofs.Frames.Actions
import Lox.Proofs.Methods.Scripts

/-!
# Scripts on a chart

A task is begun where the chart tells of the machine and of the values that the task is given. A
statement that declares a name is executed only in a frame that admits the name. Whatever a script
asks for is asked for in this way, and however the script ends, the chart has only grown.
-/

namespace Lox

namespace Task

/-- What a task is given is in a chart, and what a statement declares may be declared where it is
executed. -/
def Ready (chart : Chart) (env : Environment) : {α : Type} → Task α → Prop
  | _, call callee vs => callee.Charted chart ∧ ∀ v ∈ vs, v.Charted chart
  | _, callFunction f vs => (Value.function f).Charted chart ∧ ∀ v ∈ vs, v.Charted chart
  | _, execute st => ∀ name ∈ st.declared?, chart.Declares env name.lexeme
  | _, _ => True

/-- The answer to a task is in a chart. -/
def AnswerCharted (chart : Chart) : {α : Type} → Task α → α → Prop
  | _, evaluate _, v => v.Charted chart
  | _, binary _ _ _, v => v.Charted chart
  | _, assignment _ _, v => v.Charted chart
  | _, propertyAssignment _ _ _, v => v.Charted chart
  | _, invocation _ _ _, v => v.Charted chart
  | _, arguments _, vs => ∀ v ∈ vs, v.Charted chart
  | _, call _ _, v => v.Charted chart
  | _, callFunction _ _, v => v.Charted chart
  | _, execute _, _ => True
  | _, block _, _ => True
  | _, forLoop _ _ _ _, _ => True

end Task

namespace Script

variable {α β : Type} {H : History} {host : Host} {nesting : Nat} {running : Option Closure}
  {chart chart' : Chart} {M : Machine}

/-- Whatever a script asks for is asked for where a chart tells of it, and however the script ends,
the chart has only grown. The history has to tell of what is asked for. -/
def Charts (H : History) (host : Host) (nesting : Nat) (running : Option Closure) (chart : Chart)
    (s : Script α) (M : Machine) (post : Chart → α → Prop) : Prop :=
  (∀ t M', s.Asks (Task.run host nesting) M t M' → H nesting running t M') →
    (∀ t M', s.Asks (Task.run host nesting) M t M' →
      M'.Extended H chart M'.current fun chart ↦ t.2.Ready chart M'.current) ∧
    (s.run (Task.run host nesting)).Charts H chart M post

namespace Charts

variable {post post' : Chart → α → Prop}

theorem mono {s : Script α} (h : Charts H host nesting running chart' s M post)
    (hchart : chart <+: chart') (hpost : ∀ {table a}, post table a → post' table a) :
    Charts H host nesting running chart s M post' := fun hH ↦
  ⟨fun t M' hasks ↦ ((h hH).1 t M' hasks).mono hchart fun h ↦ h, (h hH).2.mono hchart hpost⟩

theorem pure {a : α} (hM : M.Charted H chart) (h : post chart a) :
    Charts H host nesting running chart (Pure.pure a : Script α) M post :=
  fun _ ↦ ⟨fun _ _ h ↦ h.elim, .pure hM h⟩

theorem perform {p : Eval α} (h : p.Charts H chart M post) :
    Charts H host nesting running chart (perform p) M post := by
  refine fun _ ↦ ⟨?_, by rwa [run_perform]⟩
  rintro t M' ⟨_, _, _, h⟩
  exact h.elim

theorem answer {t : Task α} (hM : M.Charted H chart) (ht : t.Ready chart M.current)
    (h : H nesting running ⟨_, t⟩ M → (t.run host nesting).Charts H chart M post) :
    Charts H host nesting running chart (answer t) M post := by
  refine fun hH ↦ ⟨?_, by
    rw [run_answer]
    exact h (hH _ _ (.inl ⟨rfl, rfl⟩))⟩
  rintro t' M' (⟨rfl, rfl⟩ | ⟨_, _, _, h⟩)
  · exact hM.extended rfl ht
  · exact h.elim

/-- The rest of a script has to be known only where the first part leads. -/
theorem andThen {s : Script α} {f : α → Script β} {P : Chart → α → Prop} {Q : Chart → β → Prop}
    (hs : Charts H host nesting running chart s M P)
    (hf : ∀ chart' a M₁, s.run (Task.run host nesting) M = .ok a M₁ → chart <+: chart' →
      M₁.current = M.current → M₁.Charted H chart' → P chart' a →
      Charts H host nesting running chart' (f a) M₁ Q) :
    Charts H host nesting running chart (s >>= f) M Q := by
  intro hH
  obtain ⟨hasks, hends⟩ := hs fun t M' h ↦ hH t M' (asks_bind_of (.inl h))
  -- The rest goes on from an extension of the chart.
  have hrest : ∀ {a M₁}, s.run (Task.run host nesting) M = .ok a M₁ →
      M₁.current = M.current ∧ ∃ chart', chart <+: chart' ∧ _ := fun {a M₁} ha ↦ by
    obtain ⟨hcurrent, chart', hchart, hM₁, hpost⟩ := hends.of_ok ha
    exact ⟨hcurrent, chart', hchart, hf chart' a M₁ ha hchart hcurrent hM₁ hpost
      fun t M' h ↦ hH t M' (asks_bind_of (.inr ⟨a, M₁, ha, h⟩))⟩
  refine ⟨fun t M' h ↦ ?_, ?_⟩
  · obtain h | ⟨a, M₁, ha, h⟩ := asks_bind h
    · exact hasks t M' h
    · obtain ⟨-, chart', hchart, hasks', -⟩ := hrest ha
      exact (hasks' t M' h).mono hchart fun h ↦ h
  · rw [run_bind]
    refine Ends.bind (.intro (fun a M₁ ha ↦ ?_) fun i M₁ hi ↦ hends.of_error hi)
    obtain ⟨hcurrent, chart', hchart, -, hends'⟩ := hrest ha
    have hmono := hends'.mono hchart fun h ↦ h
    rwa [Eval.Charts, hcurrent] at hmono

theorem bind {s : Script α} {f : α → Script β} {P : Chart → α → Prop} {Q : Chart → β → Prop}
    (hs : Charts H host nesting running chart s M P)
    (hf : ∀ chart' a M₁, chart <+: chart' → M₁.current = M.current → M₁.Charted H chart' →
      P chart' a → Charts H host nesting running chart' (f a) M₁ Q) :
    Charts H host nesting running chart (s >>= f) M Q :=
  hs.andThen fun chart' a M₁ _ ↦ hf chart' a M₁

theorem get_bind {f : Machine → Script β} {Q : Chart → β → Prop}
    (h : Charts H host nesting running chart (f M) M Q) :
    Charts H host nesting running chart (Script.perform MonadState.get >>= f) M Q := by
  intro hH
  obtain ⟨hasks, hends⟩ := h fun t M' h ↦ hH t M' ⟨M, M, rfl, h⟩
  refine ⟨?_, hends⟩
  rintro t M' ⟨_, _, hget, h⟩
  cases hget
  exact hasks t M' h

/-- The environment that was current before is current again, and the chart still tells of it. -/
theorem enclose {env : Environment} {s : Script α} (hM : M.Charted H chart)
    (henv : chart.Reaches env)
    (hs : ({ M with current := env } : Machine).Charted H chart →
      Charts H host nesting running chart s { M with current := env } post) :
    Charts H host nesting running chart (enclose env s) M post := by
  have hrestored : ∀ {M' : Machine} {P : Chart → Prop}, M'.Extended H chart env P →
      ({ M' with current := M.current } : Machine).Extended H chart M.current P := by
    rintro M' P ⟨-, chart', hchart, hM', hP⟩
    exact ⟨rfl, chart', hchart, hM'.enter (hM.current.mono hchart), hP⟩
  intro hH
  obtain ⟨hasks, hends⟩ := hs (hM.enter henv) fun t M' h ↦ hH t M' (.inl h)
  refine ⟨?_, ?_⟩
  · rintro t M' (h | ⟨_, _, _, h⟩)
    · exact hasks t M' h
    · exact h.elim
  · rw [run_enclose]
    exact Eval.ends_within (Ends.mono hends (fun _ _ h ↦ hrestored h) fun _ _ h ↦ hrestored h)

/-- A value that is returned becomes the value of the call. -/
theorem body {s : Script Unit} (hs : Charts H host nesting running chart s M fun _ _ ↦ True) :
    Charts H host nesting running chart (body s) M fun chart v ↦ v.Charted chart := by
  intro hH
  obtain ⟨hasks, hends⟩ := hs fun t M' h ↦ hH t M' (.inl h)
  refine ⟨?_, ?_⟩
  · rintro t M' (h | ⟨_, _, _, h⟩)
    · exact hasks t M' h
    · exact h.elim
  · rw [run_body]
    refine Eval.ends_catchReturn (Ends.mono hends (fun _ _ h ↦ ?_) fun i M' h ↦ ⟨?_, fun _ ↦ h⟩)
    · exact h.mono List.prefix_rfl fun _ ↦ trivial
    · rintro v rfl
      exact h

theorem forM {ι : Type} {f : ι → Script Unit} {items : List ι} (hM : M.Charted H chart)
    (hf : ∀ i ∈ items, ∀ chart' M', chart <+: chart' → M'.current = M.current →
      M'.Charted H chart' → Charts H host nesting running chart' (f i) M' fun _ _ ↦ True) :
    Charts H host nesting running chart (items.forM f) M fun _ _ ↦ True := by
  induction items generalizing chart M with
  | nil => exact pure hM trivial
  | cons i items ih =>
    rw [List.forall_mem_cons] at hf
    refine bind (hf.1 chart M List.prefix_rfl rfl hM) fun chart₁ _ M₁ hchart hcurrent hM₁ _ ↦
      ih hM₁ fun j hj chart' M' hchart' hcurrent' ↦ ?_
    exact hf.2 j hj chart' M' (hchart.trans hchart') (hcurrent'.trans hcurrent)

theorem each {ι : Type} {f : ι → Script Value} {items : List ι} (hM : M.Charted H chart)
    (hf : ∀ i chart' M', M'.Charted H chart' →
      Charts H host nesting running chart' (f i) M' fun chart v ↦ v.Charted chart) :
    Charts H host nesting running chart (each f items) M fun chart vs ↦
      ∀ v ∈ vs, v.Charted chart := by
  induction items generalizing chart M with
  | nil => exact pure hM (List.forall_mem_nil _)
  | cons i items ih =>
    refine bind (hf i chart M hM) fun _ v _ _ _ hM₁ hv ↦
      bind (ih hM₁) fun _ vs _ hchart _ hM₂ hvs ↦ pure hM₂ ?_
    exact List.forall_mem_cons.mpr ⟨hv.mono hchart, hvs⟩

theorem repeatWhile {round : Script Bool}
    (hround : ∀ chart' M', M'.Charted H chart' →
      Charts H host nesting running chart' round M' fun _ _ ↦ True)
    (rounds : Nat) (hM : M.Charted H chart) :
    Charts H host nesting running chart (repeatWhile round rounds) M fun _ _ ↦ True := by
  induction rounds generalizing chart M with
  | zero => exact perform (.throw hM trivial)
  | succ rounds ih =>
    refine bind (hround chart M hM) fun _ b _ _ _ hM₁ _ ↦ ?_
    cases b with
    | true => exact ih hM₁
    | false => exact pure hM₁ trivial

end Charts

end Script

end Lox
