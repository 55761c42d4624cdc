import Lox.Proofs.Frames.Scopes
import Lox.Proofs.Frames.Tasks
import Lox.Proofs.Methods.Moments

/-!
# The frames of every machine that a session reaches

Whatever a session is told to do, some chart tells of its machine at every moment: whenever a task
is begun, however it comes to its end, and between any two commands. All that is known of frames and
classes in general is read off the chart.

A class may have the name of another one, even of one above it, since a name can be declared anew
outside of all scopes. The chain of superclasses is finite nevertheless, because every class is
newer than its superclass. So a search for a method that goes from class to class comes to its end.
-/

namespace Lox

/-! ## Classes -/

/-- The search for a method as a loop that goes from class to class, with a bound on its rounds. It
has no result if it is not done by then. -/
def Class.climb (name : String) : Nat → Class → Option (Option (FunDecl × Environment))
  | 0, _ => none
  | rounds + 1, c =>
    match c.methods.get? name with
    | some method => some (some (method, c.environment))
    | none =>
      match c.superclass with
      | some d => d.climb name rounds
      | none => some none

theorem Class.climb_eq {name : String} {c : Class} {rounds : Nat} (h : c.lineage.length ≤ rounds) :
    c.climb name rounds = some (c.findMethod? name) := by
  fun_induction findMethod? c name generalizing rounds with
  | case1 id className superclass methods environment name m hm =>
    have hpos : 0 < rounds := by
      cases superclass <;> exact Nat.lt_of_lt_of_le (Nat.succ_pos _) h
    obtain ⟨rounds, rfl⟩ := Nat.exists_eq_add_of_lt hpos
    simp [climb, hm]
  | case2 id className methods environment name hm =>
    obtain ⟨rounds, rfl⟩ := Nat.exists_eq_add_of_lt (Nat.lt_of_lt_of_le (Nat.succ_pos _) h)
    simp [climb, hm]
  | case3 id className methods environment name hm c ih =>
    obtain ⟨rounds, rfl⟩ := Nat.exists_eq_add_of_le' (Nat.le_trans (Nat.le_add_left 1 _) h)
    have hc : c.lineage.length ≤ rounds := Nat.le_of_succ_le_succ h
    simp [climb, hm, ih hc]

/-- The number of arguments that a class takes is that of the initializer that the search finds. -/
theorem Class.climb_initializerName {c : Class} {rounds : Nat} (h : c.lineage.length ≤ rounds) :
    (c.climb initializerName rounds).map (·.elim 0 (·.1.arity)) = some c.arity := by
  rw [climb_eq h, arity]
  cases c.findMethod? initializerName <;> rfl

namespace Chart.Sound

variable {H : History} {chart : Chart} {c d : Class}

/-- A class is newer than all classes above it. -/
theorem pairwise_lineage (h : chart.Sound H) (hc : chart.HasClass c) :
    c.lineage.Pairwise (fun c d ↦ d.id < c.id) ∧ ∀ d ∈ c.lineage, d.id ≤ c.id := by
  fun_induction Class.lineage c with
  | case1 =>
    exact ⟨List.pairwise_singleton _ _, List.forall_mem_singleton.mpr (Nat.le_refl _)⟩
  | case2 id name parent methods environment ih =>
    obtain ⟨hparent, hlt⟩ := h.parent hc rfl
    obtain ⟨hpairwise, hle⟩ := ih hparent
    have hbelow : ∀ d ∈ parent.lineage, d.id < id := fun d hd ↦ Nat.lt_of_le_of_lt (hle d hd) hlt
    exact ⟨List.pairwise_cons.mpr ⟨hbelow, hpairwise⟩,
      List.forall_mem_cons.mpr ⟨Nat.le_refl _, fun d hd ↦ Nat.le_of_lt (hbelow d hd)⟩⟩

/-- There are no more classes above a class than have been made before it. -/
theorem length_lineage_le (h : chart.Sound H) (hc : chart.HasClass c) :
    c.lineage.length ≤ c.id + 1 := by
  fun_induction Class.lineage c with
  | case1 => exact Nat.succ_le_succ (Nat.zero_le _)
  | case2 id name parent methods environment ih =>
    obtain ⟨hparent, hlt⟩ := h.parent hc rfl
    exact Nat.succ_le_succ (Nat.le_trans (ih hparent) hlt)

end Chart.Sound

/-! ## One command -/

namespace Eval

variable {α : Type} {H : History} {chart : Chart} {p : Eval α} {M : Machine}

/-- However a computation ends, an extension of the chart tells of the machine then. -/
theorem Charts.extended_last {post : Chart → α → Prop} (h : p.Charts H chart M post) :
    (p.last M).Extended H chart M.current fun _ ↦ True := by
  rw [last]
  cases hp : p M with
  | ok a M' => exact (h.of_ok hp).mono List.prefix_rfl fun _ ↦ trivial
  | error i M' => exact (h.of_error hp).mono List.prefix_rfl fun _ ↦ trivial

end Eval

/-- Whatever is being done was begun where an extension of the chart told of it, if that is so of
all that the script asks for. -/
theorem extended_of_doing {H : History} {host : Host} (hclosed : H.Closed host)
    (hsuited : ∀ nesting running t M, H nesting running t M → Task.Suited H running t M)
    {α : Type} {s : Script α} {chart : Chart} {M : Machine} {post : Chart → α → Prop}
    {nesting : Nat} {chain : List Begun} (hs : s.Charts H host host.nesting none chart M post)
    (hH : ∀ t M', s.Asks (Task.run host host.nesting) M t M' → H host.nesting none t M')
    (h : Doing host s M nesting chain) :
    ∃ t M' outer, chain = (t, M') :: outer ∧ H nesting (running? outer) t M' ∧
      M'.Extended H chart M'.current fun chart ↦ t.2.Ready chart M'.current := by
  induction h with
  | outermost hasks => exact ⟨_, _, [], rfl, hH _ _ hasks, (hs hH).1 _ _ hasks⟩
  | @inner nesting b _ _ _ _ hasks ih =>
    obtain ⟨t, M₁, outer, heq, hb, -, chart', hchart, hM₁, ht⟩ := ih
    cases heq
    have hinner := fun t' M' ↦ hclosed nesting _ t M₁ t' M' hb
    have hscript := ((Task.charted_run hclosed hsuited nesting).script hM₁ ht hb
      (hsuited _ _ _ _ hb)) hinner
    exact ⟨_, _, _, rfl, hinner _ _ hasks, (hscript.1 _ _ hasks).mono hchart fun h ↦ h⟩

namespace Session

variable {s : Session} {H : History} {chart : Chart} {α β : Type} {M : Machine}

/-- A chart tells of the machine of a session between two commands. -/
structure Charted (H : History) (chart : Chart) (s : Session) : Prop where
  machine : s.machine.Charted H chart
  current : s.machine.current = Machine.globals

/-- What is known of a command when it has been served: a chart tells of the machine then, and told
of it at all moments in between. -/
structure ChartedThrough (H : History) (chart : Chart) (s : Session) (r : Command)
    (s' : Session) : Prop where
  ends : ∃ chart', s'.Charted H chart'
  moments : ∀ {nesting t M outer}, s.Doing nesting ((t, M) :: outer) r →
    M.Extended H chart M.current fun chart ↦ t.2.Ready chart M.current

/-- A computation that is performed does what a script does. -/
theorem charted_perform (hs : s.Charted H chart) {script : Script β} {post : Chart → β → Prop}
    {p : Eval α} (hscript : (script.run (Task.run s.host s.host.nesting)).Charts H chart s.machine
      post)
    (hlast : (script.run (Task.run s.host s.host.nesting)).last s.machine = p.last s.machine) :
    ∃ chart', (s.perform p).2.Charted H chart' := by
  obtain ⟨hcurrent, chart', hchart, hM, -⟩ := hscript.extended_last
  rw [hlast] at hcurrent hM
  refine ⟨chart', ?_, ?_⟩
  · rw [machine_perform]
    exact hM.of_eq rfl rfl rfl (Nat.le_refl _)
  · rw [machine_perform]
    exact hcurrent.trans hs.current

variable (hclosed : H.Closed s.host)
  (hsuited : ∀ nesting running t M, H nesting running t M → Task.Suited H running t M)

include hclosed hsuited

theorem charted_run (hs : s.Charted H chart) (source : String)
    (hH : ∀ nesting t M outer, s.Doing nesting ((t, M) :: outer) (.run source) →
      H nesting (running? outer) t M) :
    s.ChartedThrough H chart (.run source) (s.serve (.run source)) := by
  cases hclean : (Lox.compile s.host.nesting source).hasErrors with
  | true =>
    rw [serve, run_of_errors hclean]
    exact ⟨⟨chart, hs⟩, fun h ↦ by rw [h.1] at hclean; cases hclean⟩
  | false =>
    rw [serve, run_of_clean hclean]
    -- The globals admit any name.
    have hglobals : ∀ x, chart.Declares s.machine.current x := fun x ↦
      ⟨_, _, ⟨_, .globals⟩, hs.current, Chart.getElem?_mono rfl hs.machine.sound.start, trivial⟩
    have hscript : Script.Charts H s.host s.host.nesting none chart
        (programScript (Lox.compile s.host.nesting source).program) s.machine fun _ _ ↦ True :=
      (Task.charted_run hclosed hsuited s.host.nesting).row hs.machine fun _ _ _ _ ↦ hglobals _
    have hasks : ∀ t M, (programScript (Lox.compile s.host.nesting source).program).Asks
        (Task.run s.host s.host.nesting) s.machine t M → H s.host.nesting none t M := fun t M h ↦
      hH _ t M [] ⟨hclean, .outermost h⟩
    refine ⟨charted_perform (s := { s with outputs := [] :: s.outputs }) ⟨hs.machine, hs.current⟩
      (hscript hasks).2 (congrArg (Eval.last · s.machine) (run_programScript s.host _)), fun h ↦ ?_⟩
    obtain ⟨_, _, _, heq, -, hextended⟩ := extended_of_doing hclosed hsuited hscript hasks h.2
    cases heq
    exact hextended

theorem charted_evaluate (hs : s.Charted H chart) (source : String)
    (hH : ∀ nesting t M outer, s.Doing nesting ((t, M) :: outer) (.evaluate source) →
      H nesting (running? outer) t M) :
    s.ChartedThrough H chart (.evaluate source) (s.serve (.evaluate source)) := by
  cases hresult : (compileExpression s.host.nesting source).result with
  | none =>
    rw [serve, evaluate_of_none hresult]
    refine ⟨⟨chart, hs⟩, fun h ↦ ?_⟩
    obtain ⟨-, e, he, -⟩ := h
    rw [hresult] at he
    cases he
  | some e =>
    cases hclean : (compileExpression s.host.nesting source).hasErrors with
    | true =>
      rw [serve, evaluate_of_errors hclean]
      exact ⟨⟨chart, hs⟩, fun h ↦ by rw [h.1] at hclean; cases hclean⟩
    | false =>
      rw [serve, evaluate_of_clean hclean hresult]
      have hscript : Script.Charts H s.host s.host.nesting none chart (.answer (.evaluate e))
          s.machine fun chart v ↦ v.Charted chart :=
        (Task.charted_run hclosed hsuited s.host.nesting).evaluate hs.machine e
      have hasks : ∀ t M, (Script.answer (.evaluate e)).Asks
          (Task.run s.host s.host.nesting) s.machine t M → H s.host.nesting none t M := fun t M h ↦
        hH _ t M [] ⟨hclean, e, hresult, .outermost h⟩
      refine ⟨charted_perform hs (hscript hasks).2 (last_textOf s.host e s.machine).symm,
        fun h ↦ ?_⟩
      obtain ⟨-, e', he', h⟩ := h
      obtain rfl := Option.some.inj (hresult.symm.trans he')
      obtain ⟨_, _, _, heq, -, hextended⟩ := extended_of_doing hclosed hsuited hscript hasks h
      cases heq
      exact hextended

theorem charted_serve (hs : s.Charted H chart) (r : Command)
    (hH : ∀ nesting t M outer, s.Doing nesting ((t, M) :: outer) r →
      H nesting (running? outer) t M) : s.ChartedThrough H chart r (s.serve r) := by
  cases r with
  | run source => exact charted_run hclosed hsuited hs source hH
  | evaluate source => exact charted_evaluate hclosed hsuited hs source hH
  | compile source => exact ⟨⟨chart, hs⟩, fun h ↦ h.elim⟩

/-! ## Rows of commands -/

theorem charted_serveAll (hs : s.Charted H chart) (commands : List Command)
    (hH : ∀ nesting t M outer, s.Moment commands nesting ((t, M) :: outer) →
      H nesting (running? outer) t M) : ∃ chart', (s.serveAll commands).Charted H chart' := by
  induction commands generalizing s chart with
  | nil => exact ⟨chart, hs⟩
  | cons r commands ih =>
    obtain ⟨chart', hs'⟩ := (charted_serve hclosed hsuited hs r fun nesting t M outer h ↦
      hH nesting t M outer ⟨[], r, commands, rfl, h⟩).ends
    refine ih ?_ hs' fun nesting t M outer h ↦ ?_
    · rwa [host_serve]
    · have hmoment : s.Moment ([r] ++ commands ++ []) nesting ((t, M) :: outer) :=
        Moment.widen [r] h []
      rw [List.append_nil] at hmoment
      exact hH nesting t M outer hmoment

omit hclosed hsuited

/-- A machine that a session reaches: one that it passes through, or the one that it has in the
end. -/
def Reaches (s : Session) (commands : List Command) (M : Machine) : Prop :=
  M = (s.serveAll commands).machine ∨ s.Passes commands M

/-- A chart tells of every machine that a session reaches. -/
theorem Reaches.exists_charted {host : Host} {commands : List Command}
    (h : (start host).Reaches commands M) :
    ∃ chart, M.Charted ((start host).tasks commands) chart := by
  have hclosed := closed_tasks (start host) commands
  have hsuited : ∀ nesting running t M, (start host).tasks commands nesting running t M →
      Task.Suited ((start host).tasks commands) running t M := by
    rintro nesting _ t M ⟨outer, hmoment, rfl⟩
    exact (hmoment.suited Machine.at_start).1
  have hstart : (start host).Charted ((start host).tasks commands) .start :=
    ⟨.start _, rfl⟩
  rcases h with rfl | ⟨nesting, t, M', outer, hmoment, hM⟩
  · obtain ⟨chart, hend⟩ := charted_serveAll hclosed hsuited hstart commands
      fun nesting t M outer h ↦ ⟨outer, h, rfl⟩
    exact ⟨chart, hend.machine⟩
  · have hH : (start host).tasks commands nesting (running? outer) t M' := ⟨outer, hmoment, rfl⟩
    obtain ⟨earlier, r, later, rfl, hdoing⟩ := hmoment
    obtain ⟨chart, hearlier⟩ := charted_serveAll hclosed hsuited hstart earlier
      fun nesting t M outer h ↦ ⟨outer, .widen [] h (r :: later), rfl⟩
    have hhost := host_serveAll (start host) earlier
    obtain ⟨-, chart', -, hM', ht⟩ := (charted_serve (by rwa [hhost]) hsuited hearlier r
      fun nesting t M outer h ↦ ⟨outer, ⟨earlier, r, later, rfl, h⟩, rfl⟩).moments hdoing
    rcases hM with rfl | rfl
    · exact ⟨chart', hM'⟩
    · obtain ⟨-, chart'', -, hlast, -⟩ := ((Task.charted_run hclosed hsuited nesting).charts t.2 hH
        hM' ht).extended_last
      exact ⟨chart'', hlast⟩

end Session

/-! ## What a chart says -/

/-- The frames, classes and functions of a machine are as a chart says, and the chart is true to the
history. -/
structure Machine.SoundHeap (H : History) (chart : Chart) (M : Machine) : Prop where
  /-- There is an origin for each frame, and every origin is what it says. -/
  size : chart.length = M.frames.next
  genuine : ∀ (id : RecordId) (origin : Origin), chart[id]? = some origin →
    origin.Genuine H chart id
  /-- What the machine holds is in the chart: the current environment, and the environments of
  functions and the classes in all frames and in the fields of all instances. -/
  current : chart.Reaches M.current
  frames : M.frames.Charted chart
  objects : M.objects.Charted chart
  /-- The frames around a frame are older and older, so they are finitely many and there is no
  cycle. The last ones are those of the globals and of the built-in functions. -/
  chain : ∀ (id : RecordId) (origin : Origin), chart[id]? = some origin →
    Along chart.links (id :: origin.outer) ∧ (id :: origin.outer).Pairwise (· > ·) ∧
      (Machine.globals <:+ id :: origin.outer ∨ id = Machine.builtinFrame ∧ origin.outer = [])
  builtins : (M.frames.record Machine.builtinFrame).names = ["clock", "toString"]
  /-- The classes above a class are older and older as well, and an identity belongs to one class
  only. -/
  lineage : ∀ c, chart.HasClass c → (∀ d ∈ c.lineage, chart.HasClass d) ∧
    c.lineage.Pairwise (fun c d ↦ d.id < c.id) ∧ ∀ d, chart.HasClass d → c.id = d.id → c = d
  /-- So the search for a method comes to its end, and so it is known how many arguments a class
  takes. -/
  search : ∀ c, chart.HasClass c →
    (∀ name, c.climb name (c.id + 1) = some (c.findMethod? name)) ∧
      (c.climb initializerName (c.id + 1)).map (·.elim 0 (·.1.arity)) = some c.arity
  /-- The methods of a class live in its environment, whose innermost frame was made for them. -/
  table : ∀ c name method, chart.HasClass c → c.methods.get? name = some method →
    c.findMethod? name = some (method, c.environment) ∧
      ∃ id outer, c.environment = id :: outer ∧ chart[id]? = some ⟨outer, .methods c⟩
  /-- What is found is a method of the nearest class that has one of this name, and lives in the
  environment of that class. -/
  methods : ∀ c name method, chart.HasClass c → c.findMethod? name = some method →
    ∃ d id outer, c.owner? name = some d ∧ d.methods.get? name = some method.1 ∧
      method.2 = id :: outer ∧ d.environment = id :: outer ∧ chart[id]? = some ⟨outer, .methods d⟩
  /-- A frame that binds `super` binds nothing else. It is the frame of a class, and the value is
  the superclass of that class. -/
  parent : ∀ id v, (M.frames.record id).get? "super" = some v → ∃ c d outer,
    chart[id]? = some ⟨outer, .methods c⟩ ∧ c.environment = id :: outer ∧ c.superclass = some d ∧
      v = .class d ∧ (M.frames.record id).names = ["super"]
  /-- A frame that binds `this` binds nothing else. The value is an instance, and the frame around
  is that of the class that has the method. -/
  self : ∀ id v, (M.frames.record id).get? "this" = some v → ∃ c method i parent outer name,
    chart[id]? = some ⟨parent :: outer, .bound c method i⟩ ∧
      chart[parent]? = some ⟨outer, .methods c⟩ ∧ c.environment = parent :: outer ∧
      c.methods.get? name = some method ∧ v = .instance i ∧ (M.frames.record id).names = ["this"]
  /-- A frame binds only names that the resolver declares in the scope for which it was made. -/
  declared : ∀ (id : RecordId) (origin : Origin), chart[id]? = some origin →
    ∀ x ∈ (M.frames.record id).names, origin.purpose.Resolves x

namespace Machine.Charted

variable {H : History} {chart : Chart} {M : Machine} {id : RecordId} {origin : Origin}

theorem chain (h : M.Charted H chart) (horigin : chart[id]? = some origin) :
    Along chart.links (id :: origin.outer) ∧ (id :: origin.outer).Pairwise (· > ·) ∧
      (Machine.globals <:+ id :: origin.outer ∨
        id = Machine.builtinFrame ∧ origin.outer = []) := by
  have halong : Along chart.links (id :: origin.outer) :=
    ⟨Chart.getElem?_links horigin, h.sound.along id origin horigin⟩
  refine ⟨halong, h.sound.pairwise_of_along halong, ?_⟩
  rcases h.sound.globals id origin horigin with hglobals | hpurpose
  · exact .inl hglobals
  · cases h.sound.genuine id origin horigin with
    | builtins hid => exact .inr ⟨hid, rfl⟩
    | _ => cases hpurpose

theorem names_builtins (h : M.Charted H chart) :
    (M.frames.record Machine.builtinFrame).names = ["clock", "toString"] :=
  h.fills _ ⟨[], .builtins⟩ (Chart.getElem?_mono rfl h.sound.start)

theorem soundHeap (h : M.Charted H chart) : M.SoundHeap H chart where
  size := h.size
  genuine := h.sound.genuine
  current := h.current
  frames := h.frames
  objects := h.objects
  chain _ _ := h.chain
  builtins := h.names_builtins
  lineage c hc := ⟨fun _ hd ↦ h.sound.hasClass_of_mem_lineage hc hd,
    (h.sound.pairwise_lineage hc).1, fun d hd ↦ h.distinct c d hc hd⟩
  search c hc := ⟨fun _ ↦ Class.climb_eq (h.sound.length_lineage_le hc),
    Class.climb_initializerName (h.sound.length_lineage_le hc)⟩
  table c name method hc hmethod := ⟨Class.findMethod?_of_get? hmethod, hc⟩
  methods c name method hc hmethod := by
    obtain ⟨d, hd, hdeclaration, henv⟩ := Class.exists_owner hmethod
    obtain ⟨id, outer, heq, horigin⟩ :=
      h.sound.hasClass_of_mem_lineage hc (Class.of_owner? hd).1
    exact ⟨d, id, outer, hd, hdeclaration, henv.trans heq, heq, horigin⟩
  parent id v hv := by
    obtain ⟨⟨outer, purpose⟩, horigin⟩ := h.exists_origin hv
    obtain ⟨c, d, rfl, hparent, hclass, hb⟩ := (h.fills id _ horigin).exists_of_super hv
    cases h.sound.genuine id _ horigin with
    | methods _ henv _ =>
      exact ⟨c, d, outer, horigin, henv, hparent, hclass, by rw [hb]; rfl⟩
  self id v hv := by
    obtain ⟨⟨outer, purpose⟩, horigin⟩ := h.exists_origin hv
    obtain ⟨c, method, i, rfl, hself, hb⟩ := (h.fills id _ horigin).exists_of_this hv
    cases h.sound.genuine id _ horigin with
    | @bound _ name _ _ hc hmethod _ =>
      obtain ⟨parent, outer, henv, hparent⟩ := hc
      rw [henv] at horigin
      exact ⟨c, method, i, parent, outer, name, horigin, hparent, henv, hmethod, hself,
        by rw [hb]; rfl⟩
  declared id origin horigin _ hx := (h.fills id origin horigin).resolves hx

end Machine.Charted

/-- The heap of every machine that a session reaches is sound: whenever a task is begun, however it
comes to its end, and after any commands. -/
theorem heap_sound (host : Host) (commands : List Command) (M : Machine)
    (h : (Session.start host).Reaches commands M) :
    ∃ chart, M.SoundHeap ((Session.start host).tasks commands) chart := by
  obtain ⟨chart, hM⟩ := h.exists_charted
  exact ⟨chart, hM.soundHeap⟩

/-- The names of a class and of all classes above it. -/
def Value.ancestry : Value → List String
  | .class c => c.lineage.map Class.name
  | _ => []

/-- A class may have the name of the class two above it. -/
theorem heap_sound_redeclared :
    ∃ chart, Machine.SoundHeap
      ((Session.start ⟨none, fun _ ↦ 0, 40, 9⟩).tasks
        [.run "class A \x7b\x7d class B < A \x7b\x7d class A < B \x7b\x7d"]) chart
      ((Session.start ⟨none, fun _ ↦ 0, 40, 9⟩).serveAll
        [.run "class A \x7b\x7d class B < A \x7b\x7d class A < B \x7b\x7d"]).machine ∧
      ∃ c, chart.HasClass c ∧ c.lineage.map Class.name = ["A", "B", "A"] := by
  obtain ⟨chart, hheap⟩ := heap_sound ⟨none, fun _ ↦ 0, 40, 9⟩
    [.run "class A \x7b\x7d class B < A \x7b\x7d class A < B \x7b\x7d"] _ (.inl rfl)
  refine ⟨chart, hheap, ?_⟩
  have hancestry : ((((Session.start ⟨none, fun _ ↦ 0, 40, 9⟩).serveAll
      [.run "class A \x7b\x7d class B < A \x7b\x7d class A < B \x7b\x7d"]).machine.frames.record
        Machine.globalFrame).get? "A").map Value.ancestry = some ["A", "B", "A"] := by
    decide +kernel
  obtain ⟨v, hv, hnames⟩ := Option.map_eq_some_iff.mp hancestry
  cases v with
  | «class» c => exact ⟨c, hheap.frames _ _ _ hv, hnames⟩
  | _ => cases hnames

end Lox
