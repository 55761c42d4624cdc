import Lox.Proofs.Environments.Actions
import Lox.Proofs.Tasks.Chain
import Lox.Proofs.Tasks.Conduct

/-!
# Tasks along a table of links

A task is begun with values that it is given, and ends with values. If the machine and the values go
along a table when a task is begun, then so do, along the same table or a longer one, whatever the
task asks for and whatever it ends with, however it ends.

The proof follows the scripts of the tasks. A script is left early wherever one of its actions or
tasks is, so both the tasks that are asked for and all the ways out are looked at in one go.
-/

namespace Lox

namespace Task

/-- The environments that the values hold which a task is given. -/
def environments : {α : Type} → Task α → List Environment
  | _, call callee vs => callee.environments ++ vs.flatMap Value.environments
  | _, callFunction f vs => f.environment :: vs.flatMap Value.environments
  | _, _ => []

/-- The environments that the answer to a task holds. -/
def yields : {α : Type} → Task α → α → List Environment
  | _, evaluate _, v => v.environments
  | _, binary _ _ _, v => v.environments
  | _, assignment _ _, v => v.environments
  | _, propertyAssignment _ _ _, v => v.environments
  | _, invocation _ _ _, v => v.environments
  | _, arguments _, vs => vs.flatMap Value.environments
  | _, call _ _, v => v.environments
  | _, callFunction _ _, v => v.environments
  | _, execute _, _ => []
  | _, block _, _ => []
  | _, forLoop _ _ _ _, _ => []

end Task

/-! ## Scripts -/

namespace Script

variable {α β : Type} {answers : Answers} {links links' : List Environment} {M : Machine}

/-- Whatever a script asks for, and however it ends, the table has only grown and everything goes
along it. -/
structure Keeps (answers : Answers) (links : List Environment) (s : Script α) (M : Machine)
    (post : List Environment → α → Prop) : Prop where
  asks : ∀ t M', s.Asks answers M t M' →
    M'.Extends links fun links' ↦ AllAlong links' t.2.environments
  ends : (s.run answers).Keeps links M post

namespace Keeps

variable {post post' : List Environment → α → Prop}

theorem mono {s : Script α} (h : Keeps answers links' s M post) (hlinks : links <+: links')
    (hpost : ∀ {table a}, post table a → post' table a) : Keeps answers links s M post' :=
  ⟨fun t M' hasks ↦ (h.asks t M' hasks).mono hlinks fun h ↦ h, h.ends.mono hlinks hpost⟩

theorem pure {a : α} (hM : M.Linked links) (h : post links a) :
    Keeps answers links (Pure.pure a : Script α) M post :=
  ⟨fun _ _ h ↦ h.elim, .pure hM h⟩

theorem perform {p : Eval α} (h : p.Keeps links M post) :
    Keeps answers links (perform p) M post := by
  refine ⟨?_, by rwa [run_perform]⟩
  rintro t M' ⟨_, _, _, h⟩
  exact h.elim

theorem answer {t : Task α} (hM : M.Linked links) (ht : AllAlong links t.environments)
    (h : (answers t).Keeps links M post) : Keeps answers links (answer t) M post := by
  refine ⟨?_, by rwa [run_answer]⟩
  rintro t' M' (⟨rfl, rfl⟩ | ⟨_, _, _, h⟩)
  · exact hM.extends ht
  · exact h.elim

theorem bind {s : Script α} {f : α → Script β} {P : List Environment → α → Prop}
    {Q : List Environment → β → Prop} (hs : Keeps answers links s M P)
    (hf : ∀ links' a M₁, links <+: links' → M₁.Linked links' → P links' a →
      Keeps answers links' (f a) M₁ Q) : Keeps answers links (s >>= f) M Q := by
  refine ⟨fun t M' h ↦ ?_, ?_⟩
  · obtain h | ⟨a, M₁, ha, h⟩ := asks_bind h
    · exact hs.asks t M' h
    · obtain ⟨links', hlinks, hM₁, hpost⟩ := hs.ends.of_ok ha
      exact ((hf links' a M₁ hlinks hM₁ hpost).asks t M' h).mono hlinks fun h ↦ h
  · rw [run_bind]
    exact hs.ends.bind fun links' a M₁ hlinks hM₁ hpost ↦ (hf links' a M₁ hlinks hM₁ hpost).ends

/-- The environment that was current before is current again, so it still goes along the table. -/
theorem enclose {env : Environment} {s : Script α} (hM : M.Linked links) (henv : Along links env)
    (hs : ({ M with current := env } : Machine).Linked links →
      Keeps answers links s { M with current := env } post) :
    Keeps answers links (enclose env s) M post := by
  obtain ⟨hasks, hends⟩ := hs ⟨hM.size, henv, hM.frames, hM.objects⟩
  have hrestored : ∀ {M' : Machine} {P : List Environment → Prop}, M'.Extends links P →
      ({ M' with current := M.current } : Machine).Extends links P := by
    rintro M' P ⟨links', hlinks, hM', hP⟩
    exact ⟨links', hlinks, ⟨hM'.size, hM.current.mono hlinks, hM'.frames, hM'.objects⟩, hP⟩
  refine ⟨?_, ?_⟩
  · rintro t M' (h | ⟨_, _, _, h⟩)
    · exact hasks t M' h
    · exact h.elim
  · rw [run_enclose]
    exact Eval.ends_within (Ends.mono hends (fun _ _ h ↦ hrestored h) fun _ _ h ↦ hrestored h)

/-- A value that is returned becomes the value of the call. -/
theorem body {s : Script Unit} (hs : Keeps answers links s M fun _ _ ↦ True) :
    Keeps answers links (body s) M fun links v ↦ AllAlong links v.environments := by
  refine ⟨?_, ?_⟩
  · rintro t M' (h | ⟨_, _, _, h⟩)
    · exact hs.asks t M' h
    · exact h.elim
  · rw [run_body]
    refine Eval.ends_catchReturn (Ends.mono hs.ends (fun _ _ h ↦ ?_) fun i M' h ↦ ⟨?_, fun _ ↦ h⟩)
    · exact h.mono List.prefix_rfl fun _ ↦ .nil
    · rintro v rfl
      exact h

theorem forM {ι : Type} {f : ι → Script Unit} {items : List ι}
    (hf : ∀ i {links M}, M.Linked links → Keeps answers links (f i) M fun _ _ ↦ True)
    (hM : M.Linked links) : Keeps answers links (items.forM f) M fun _ _ ↦ True := by
  induction items generalizing links M with
  | nil => exact pure hM trivial
  | cons i items ih => exact bind (hf i hM) fun _ _ _ _ hM _ ↦ ih hM

theorem each {ι : Type} {f : ι → Script Value} {items : List ι}
    (hf : ∀ i {links M}, M.Linked links →
      Keeps answers links (f i) M fun links v ↦ AllAlong links v.environments)
    (hM : M.Linked links) : Keeps answers links (each f items) M fun links vs ↦
      AllAlong links (vs.flatMap Value.environments) := by
  induction items generalizing links M with
  | nil => exact pure hM .nil
  | cons i items ih =>
    refine bind (hf i hM) fun _ v _ _ hM hv ↦ bind (ih hM) fun _ vs _ hlinks hM hvs ↦ pure hM ?_
    rw [List.flatMap_cons]
    exact allAlong_append.mpr ⟨hv.mono hlinks, hvs⟩

theorem repeatWhile {round : Script Bool}
    (hround : ∀ {links M}, M.Linked links → Keeps answers links round M fun _ _ ↦ True)
    (rounds : Nat) (hM : M.Linked links) :
    Keeps answers links (repeatWhile round rounds) M fun _ _ ↦ True := by
  induction rounds generalizing links M with
  | zero => exact perform (.throw hM .nil)
  | succ rounds ih =>
    refine bind (hround hM) fun _ b _ _ hM _ ↦ ?_
    cases b with
    | true => exact ih hM
    | false => exact pure hM trivial

end Keeps

end Script

/-! ## The scripts of the tasks -/

namespace Task

open Script (Keeps)

/-- However a task is done, the table has only grown, and everything goes along it. -/
structure Kept (answers : Answers) : Prop where
  keeps : ∀ {α : Type} (t : Task α) {links : List Environment} {M : Machine}, M.Linked links →
    AllAlong links t.environments →
    (answers t).Keeps links M fun links a ↦ AllAlong links (t.yields a)

section Scripts

variable {answers : Answers} (h : Kept answers) (host : Host) {links : List Environment}
  {M : Machine}

include h

theorem Kept.given {α : Type} {t : Task α} (hM : M.Linked links)
    (ht : AllAlong links t.environments) :
    Keeps answers links (.answer t) M fun links a ↦ AllAlong links (t.yields a) :=
  .answer hM ht (h.keeps t hM ht)

theorem Kept.evaluate (hM : M.Linked links) (e : Expr) :
    Keeps answers links (.answer (evaluate e)) M fun links v ↦ AllAlong links v.environments :=
  h.given hM .nil

theorem Kept.done {t : Task Unit} (hM : M.Linked links) (ht : AllAlong links t.environments) :
    Keeps answers links (.answer t) M fun _ _ ↦ True :=
  (h.given hM ht).mono List.prefix_rfl fun _ ↦ trivial

theorem Kept.execute (hM : M.Linked links) (st : Stmt) :
    Keeps answers links (.answer (execute st)) M fun _ _ ↦ True := h.done hM .nil

theorem Kept.expression (hM : M.Linked links) (e : Expr) :
    Keeps answers links e.script M fun links v ↦ AllAlong links v.environments := by
  cases e with
  | literal value => exact .pure hM (by cases value <;> exact .nil)
  | group inner => exact h.evaluate hM inner
  | unary operator operand =>
    exact .bind (h.evaluate hM operand) fun _ _ _ _ hM _ ↦
      .perform (.operator hM fun _ ↦ Value.environments_unary)
  | binary left operator right | assign target value | setProperty object name value
  | call callee paren items => exact h.given hM .nil
  | logical left operator right =>
    refine .bind (h.evaluate hM left) fun _ v _ _ hM hv ↦ ?_
    split
    · exact .pure hM hv
    · exact h.evaluate hM right
  | var target => exact .perform (.lookup hM target)
  | property object name =>
    exact .bind (h.evaluate hM object) fun _ _ _ _ hM hv ↦ .perform (.property hM name hv)
  | self keyword => exact .perform (.lookup hM keyword)
  | inherited keyword method => exact .perform (.inherited hM keyword method)

theorem Kept.loopRound (hM : M.Linked links) (condition : Expr) (body : Stmt) :
    Keeps answers links (loopRound condition body) M fun _ _ ↦ True := by
  refine .bind (h.evaluate hM condition) fun _ v _ _ hM _ ↦ ?_
  split
  · exact .bind (h.execute hM body) fun _ _ _ _ hM _ ↦ .pure hM trivial
  · exact .pure hM trivial

theorem Kept.forRound (hM : M.Linked links) (condition increment : Option Expr) (body : Stmt) :
    Keeps answers links (forRound condition increment body) M fun _ _ ↦ True := by
  rw [Lox.forRound.eq_def]
  refine .bind (P := fun _ _ ↦ True) ?_ fun _ holds _ _ hM _ ↦ ?_
  · cases condition with
    | none => exact .pure hM trivial
    | some e => exact .bind (h.evaluate hM e) fun _ _ _ _ hM _ ↦ .pure hM trivial
  split
  · refine .bind (h.execute hM body) fun _ _ _ _ hM _ ↦ ?_
    cases increment with
    | none => exact .pure hM trivial
    | some e => exact .bind (h.evaluate hM e) fun _ _ _ _ hM _ ↦ .pure hM trivial
  · exact .pure hM trivial

theorem Kept.statement (hM : M.Linked links) (st : Stmt) :
    Keeps answers links (st.script host) M fun _ _ ↦ True := by
  cases st with
  | expression value => exact .bind (h.evaluate hM value) fun _ _ _ _ hM _ ↦ .pure hM trivial
  | print value =>
    exact .bind (h.evaluate hM value) fun _ _ _ _ hM _ ↦ .perform (.printLine hM _)
  | var name initializer =>
    cases initializer with
    | none => exact .perform (.define hM _ .nil)
    | some e => exact .bind (h.evaluate hM e) fun _ _ _ _ hM hv ↦ .perform (.define hM _ hv)
  | block items | forLoop initializer condition increment body => exact h.done hM .nil
  | branch condition yes no =>
    rw [Stmt.script.eq_def]
    refine .bind (h.evaluate hM condition) fun _ v _ _ hM _ ↦ ?_
    split
    · exact h.execute hM yes
    · cases no with
      | none => exact .pure hM trivial
      | some no => exact h.execute hM no
  | loop condition body =>
    exact .repeatWhile (fun hM ↦ h.loopRound hM condition body) host.rounds hM
  | function declaration =>
    exact .perform (.bind (.get hM) fun _ _ _ _ hM hM' ↦
      .bind (.newFunction hM declaration hM'.current) fun _ _ _ _ hM hf ↦
        .define hM _ (.singleton hf))
  | «return» keyword value =>
    cases value with
    | none => exact .perform (.throw hM .nil)
    | some e => exact .bind (h.evaluate hM e) fun _ _ _ _ hM hv ↦ .perform (.throw hM hv)
  | «class» name superclass methods =>
    cases superclass with
    | none => exact .perform (.defineClass hM _ _ fun _ h ↦ by cases h)
    | some r =>
      refine .bind (.perform (.superclass hM r)) fun _ c _ _ hM hc ↦
        .perform (.defineClass hM _ _ ?_)
      rintro _ ⟨⟩
      exact hc

theorem Kept.callScript (hM : M.Linked links) {callee : Value} {vs : List Value}
    (hcallee : AllAlong links callee.environments)
    (hvs : AllAlong links (vs.flatMap Value.environments)) :
    Keeps answers links (callee.script host vs) M fun links v ↦ AllAlong links v.environments := by
  cases callee with
  | native n => exact .perform (.callNative hM host n vs)
  | function f => exact h.given hM (allAlong_cons.mpr ⟨allAlong_cons.mp hcallee |>.1, hvs⟩)
  | «class» c =>
    refine .bind (.perform (.newInstance hM hcallee)) fun _ i _ hlinks hM hi ↦ ?_
    cases hmethod : c.findMethod? initializerName with
    | some method =>
      have henv := (hcallee.mono hlinks) _ (Class.mem_environments hmethod)
      refine .bind (.perform (.bindMethod hM henv hi)) fun _ f _ hlinks' hM hf ↦ ?_
      have hgiven := allAlong_append.mpr
        ⟨AllAlong.singleton hf, hvs.mono (hlinks.trans hlinks')⟩
      exact .bind (h.given hM hgiven) fun _ _ _ hlinks'' hM _ ↦
        .pure hM (hi.mono (hlinks'.trans hlinks''))
    | none => exact .pure hM hi
  | nil | bool _ | number _ | string _ | «instance» _ => exact .perform (.throw hM .nil)

theorem Kept.script {α : Type} (t : Task α) (hM : M.Linked links)
    (ht : AllAlong links t.environments) :
    Keeps answers links (t.script host) M fun links a ↦ AllAlong links (t.yields a) := by
  cases t with
  | evaluate e => exact h.expression hM e
  | binary left operator right =>
    exact .bind (h.evaluate hM left) fun _ _ _ _ hM _ ↦
      .bind (h.evaluate hM right) fun _ _ _ _ hM _ ↦
        .perform (.operator hM fun _ ↦ Value.environments_binary)
  | assignment target value =>
    exact .bind (h.evaluate hM value) fun _ _ _ _ hM hv ↦
      .bind (.perform (.assign hM target hv)) fun _ _ _ hlinks hM _ ↦ .pure hM (hv.mono hlinks)
  | propertyAssignment object name value =>
    exact .bind (h.evaluate hM value) fun _ _ _ _ hM hv ↦
      .bind (h.evaluate hM object) fun _ _ _ hlinks hM _ ↦
        .bind (.perform (.setProperty hM name (hv.mono hlinks))) fun _ _ _ hlinks' hM _ ↦
          .pure hM (hv.mono (hlinks.trans hlinks'))
  | invocation callee paren items =>
    exact .bind (h.evaluate hM callee) fun _ f _ _ hM hf ↦
      .bind (h.given hM .nil) fun _ vs _ hlinks hM hvs ↦
        .bind (.perform (.checkCall hM f paren vs.length)) fun _ _ _ hlinks' hM _ ↦
          h.given hM (allAlong_append.mpr ⟨hf.mono (hlinks.trans hlinks'), hvs.mono hlinks'⟩)
  | arguments items => exact .each (fun e _ _ hM ↦ h.evaluate hM e) hM
  | call callee vs =>
    obtain ⟨hcallee, hvs⟩ := allAlong_append.mp ht
    exact h.callScript host hM hcallee hvs
  | callFunction f vs =>
    obtain ⟨hf, hvs⟩ := allAlong_cons.mp ht
    refine .bind (.perform (.newFrame hM hf fun x v hv ↦ ?_)) fun _ env _ _ hM henv ↦
      .body (.enclose hM henv fun hM ↦ h.execute hM f.declaration.body)
    -- Whatever a parameter is bound to is one of the arguments.
    have hmem := (List.of_mem_zip (Bindings.mem_of_get?_ofList hv)).2
    exact fun env henv ↦ hvs env (List.mem_flatMap_of_mem hmem henv)
  | execute st =>
    exact .mono (.bind (.perform (.step hM host)) fun _ _ _ _ hM _ ↦ h.statement host hM st)
      List.prefix_rfl fun _ ↦ .nil
  | block items =>
    refine .bind (.perform (.get hM)) fun _ m _ _ hM hm ↦ ?_
    refine .bind (.perform (.newFrame hM hm.current nofun)) fun _ env _ _ hM henv ↦ ?_
    exact .mono (.enclose hM henv fun hM ↦ .forM (fun st _ _ hM ↦ h.execute hM st) hM)
      List.prefix_rfl fun _ ↦ .nil
  | forLoop initializer condition increment body =>
    refine .bind (.perform (.get hM)) fun _ m _ _ hM hm ↦ ?_
    refine .bind (.perform (.newFrame hM hm.current nofun)) fun _ env _ _ hM henv ↦ ?_
    have hrounds : ∀ {links M}, Machine.Linked links M → Keeps answers links
        (Script.repeatWhile (Lox.forRound condition increment body) host.rounds) M
        fun _ _ ↦ True :=
      fun hM ↦ .repeatWhile (fun hM ↦ h.forRound hM condition increment body) host.rounds hM
    refine Keeps.mono (?_ : Keeps answers _ _ _ fun _ _ ↦ True) List.prefix_rfl fun _ ↦ .nil
    refine .enclose hM henv fun hM ↦ ?_
    cases initializer with
    | none => exact hrounds hM
    | some st => exact .bind (h.execute hM st) fun _ _ _ _ hM _ ↦ hrounds hM

end Scripts

theorem kept_run (host : Host) (nesting : Nat) : Kept (run host nesting) := by
  induction nesting with
  | zero =>
    refine ⟨fun t _ _ hM _ ↦ ?_⟩
    rw [run_zero]
    exact .throw hM .nil
  | succ nesting ih =>
    refine ⟨fun t _ _ hM ht ↦ ?_⟩
    rw [run_succ]
    exact (ih.script host t hM ht).ends

end Task

/-- Whatever is being done was begun along an extension of the table, if the script that is run asks
for nothing else. -/
theorem extends_of_doing {host : Host} {α : Type} {s : Script α} {links : List Environment}
    {M : Machine} {post : List Environment → α → Prop} {nesting : Nat} {chain : List Begun}
    (hs : s.Keeps (Task.run host host.nesting) links M post) (h : Doing host s M nesting chain) :
    ∃ b outer, chain = b :: outer ∧
      b.2.Extends links fun links' ↦ AllAlong links' b.1.2.environments := by
  induction h with
  | outermost hasks => exact ⟨_, [], rfl, hs.asks _ _ hasks⟩
  | @inner nesting b outer t M' _ hasks ih =>
    obtain ⟨_, _, heq, links', hlinks, hM, ht⟩ := ih
    obtain ⟨rfl, rfl⟩ := List.cons.inj heq
    have hscript := (Task.kept_run host nesting).script host b.1.2 hM ht
    exact ⟨_, _, rfl, (hscript.asks _ _ hasks).mono hlinks fun h ↦ h⟩

end Lox
