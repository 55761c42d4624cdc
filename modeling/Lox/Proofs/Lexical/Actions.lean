import Lox.Proofs.Actions
import Lox.Proofs.Lexical.Lockstep

/-!
# Actions that correspond

Every action of the machine does the same as its counterpart in the lexical semantics. What is to be
shown for most of them is only that the states correspond afterwards. Where a name is looked for,
the distance leads to the frame whose name has the location that is in scope.
-/

namespace Lox.Lexical

variable {excused : String → Prop} {inside : Bool} {β : Placement} {M : Lox.Machine} {μ : Machine}
  {ctx : Context}
  {scope : Scope} {V : Lox.Value} {v : Value}

namespace Eval

/-! ## What the actions do -/

theorem load_of_some {l : Location} (h : μ.cells[l]? = some v) : load l μ = .ok v μ := by
  rw [load, bind_of_ok (show (MonadState.get : Eval Machine) μ = .ok μ μ from rfl), h]
  rfl

theorem lookup_of_local {names : Names} {name : Token} {l : Location}
    (h : names name.lexeme = some l) : lookup names name = load l := by rw [lookup, h]

theorem lookup_of_global {names : Names} {name : Token} (h : names name.lexeme = none) :
    lookup names name μ
      = match (μ.globals.get? name.lexeme).or (μ.builtins.get? name.lexeme) with
        | some v => .ok v μ
        | none => .error (.issue (.atToken name (.undefinedVariable name.lexeme))) μ := by
  rw [lookup, h]
  change (match (μ.globals.get? name.lexeme).or (μ.builtins.get? name.lexeme) with
    | some v => Pure.pure v
    | none => fail name (.undefinedVariable name.lexeme) : Eval Value) μ = _
  cases (μ.globals.get? name.lexeme).or (μ.builtins.get? name.lexeme) <;> rfl

theorem assign_of_local {names : Names} {name : Token} {l : Location}
    (h : names name.lexeme = some l) (v : Value) :
    assign names name v μ = .ok () { μ with cells := μ.cells.setIfInBounds l v } := by
  rw [assign, h]
  rfl

theorem assign_of_global {names : Names} {name : Token} (h : names name.lexeme = none) (v : Value) :
    assign names name v μ
      = if μ.globals.contains name.lexeme then
          .ok () { μ with globals := μ.globals.insert name.lexeme v }
        else if μ.builtins.contains name.lexeme then
          .ok () { μ with builtins := μ.builtins.insert name.lexeme v }
        else .error (.issue (.atToken name (.undefinedVariable name.lexeme))) μ := by
  rw [assign, h]
  change (if μ.globals.contains name.lexeme then
      set { μ with globals := μ.globals.insert name.lexeme v }
    else if μ.builtins.contains name.lexeme then
      set { μ with builtins := μ.builtins.insert name.lexeme v }
    else fail name (.undefinedVariable name.lexeme) : Eval Unit) μ = _
  split
  · rfl
  · split <;> rfl

theorem step_run (host : Host) (μ : Machine) : step host μ = match host.maxSteps with
    | some limit =>
      if limit < ((μ.steps + 1 : Nat) : Int) then
        .error (.issue (.anywhere (.stepLimit limit))) { μ with steps := μ.steps + 1 }
      else .ok () { μ with steps := μ.steps + 1 }
    | none => .ok () { μ with steps := μ.steps + 1 } := by
  rw [step]
  cases host.maxSteps with
  | none => rfl
  | some limit =>
    change (if limit < ((μ.steps + 1 : Nat) : Int) then
      throw (.issue (.anywhere (.stepLimit limit))) else pure () : Eval Unit)
        { μ with steps := μ.steps + 1 } = _
    simp only []
    split <;> rfl

theorem declare_of_local (h : scope.isLocal = true) (x : String) (value : Names → Value) :
    declare scope x value μ
      = .ok (.within (scope.names.extend x μ.cells.size))
          { μ with cells := μ.cells.push (value (scope.names.extend x μ.cells.size)) } := by
  rw [declare, if_pos h]
  rfl

theorem declare_of_global (h : scope.isLocal = false) (x : String) (value : Names → Value) :
    declare scope x value μ
      = .ok scope { μ with globals := μ.globals.insert x (value scope.names) } := by
  rw [declare, if_neg (by rw [h]; exact Bool.false_ne_true)]
  rfl

end Eval

/-- A name that the innermost scope does not declare yet is not bound in its frame. -/
theorem Meets.unbound (h : Meets excused β ctx scope M μ) {xs : List String} {outer : Context}
    {x : String} (hctx : ctx = .names xs :: outer) (hx : x ∉ xs) :
    ∃ id rest, M.current = id :: rest ∧ (M.frames.record id).get? x = none := by
  subst hctx
  have hplaced := h.placed
  have hhead := h.head
  cases hcurrent : M.current with
  | nil =>
    rw [hcurrent] at hplaced
    cases hplaced
  | cons id rest =>
    rw [hcurrent] at hhead
    obtain ⟨hid, -, hnames⟩ := hhead
    have hnone : β id x = none := by
      by_contra hne
      exact hx (hnames _ (Option.isSome_iff_ne_none.mpr hne))
    exact ⟨id, rest, rfl, h.agree.unlocated hid hnone⟩

namespace Lockstep

/-! ## Failing -/

theorem fail {α α' : Type} {ok : Placement → Lox.Machine → Machine → α → α' → Prop}
    (h : Matches excused β M μ) (token : Token) (cause : Issue.Cause) :
    Lockstep excused inside β
      (Lox.Eval.fail token cause : Lox.Eval α) M (Eval.fail token cause) μ ok :=
  throw h .issue

theorem overflow {α α' : Type} {ok : Placement → Lox.Machine → Machine → α → α' → Prop}
    (h : Matches excused β M μ) :
    Lockstep excused inside β (Lox.Eval.overflow : Lox.Eval α) M Eval.overflow μ ok :=
  throw h .issue

theorem ofExcept {V : Except Issue Lox.Value} {v : Except Issue Value}
    (h : Meets excused β ctx scope M μ) (hresult : ResultMatches excused β V v) :
    Lockstep excused inside β (Lox.Eval.ofExcept .issue V) M (Eval.ofExcept v) μ
      (Yields excused ctx scope (ValueMatches excused)) := by
  cases V with
  | ok V =>
    cases v with
    | ok v => exact pure ⟨h, hresult⟩
    | error i => cases hresult
  | error i =>
    cases v with
    | ok v => cases hresult
    | error j =>
      obtain rfl : i = j := hresult
      exact throw h.agree .issue

/-! ## Names -/

theorem names_eq (h : Meets excused β ctx scope M μ) : scope.names = β.names ctx M.current := by
  rw [h.scope]
  rfl

/-- Access by distance to a name that has a location. -/
theorem getAt (h : Meets excused β ctx scope M μ) {d : Nat} {id : RecordId} {rest : Environment}
    {x : String} {l : Location} (hdrop : M.current.drop d = id :: rest) (hl : β id x = some l) :
    Lockstep excused inside β (Lox.Eval.getAt d x) M (Eval.load l) μ fun β' M' μ' V v ↦
      (β' = β ∧ M' = M ∧ μ' = μ) ∧ ValueMatches excused β V v ∧ Suits x V := by
  obtain ⟨hid, V, v, hV, hv, hmatches⟩ := h.agree.located hl
  refine of_ok ?_ (Eval.load_of_some hv) (.refl β M)
    ⟨⟨rfl, rfl, rfl⟩, hmatches, h.agree.suits hid hV⟩
  rw [Lox.Eval.getAt_run, Store.getAt_of_drop hdrop hV]

/-- Reading a name. -/
theorem lookup (h : Meets excused β ctx scope M μ) {r : Reference} (hr : r.name.lexeme ≠ "super")
    (hdistance : r.distance = ctx.distance? r.name.lexeme) :
    Lockstep excused inside β (Lox.Eval.lookup r) M (Eval.lookup scope.names r.name) μ
      (Yields excused ctx scope (ValueMatches excused)) := by
  cases hd : ctx.distance? r.name.lexeme with
  | some d =>
    obtain ⟨id, rest, l, hdrop, hl, hx⟩ := h.placed.exists_frame hr hd
    rw [Lox.Eval.lookup_of_distance (hdistance.trans hd),
      Eval.lookup_of_local ((congrFun (names_eq h) _).trans hx)]
    refine (getAt h hdrop hl).mono ?_
    rintro _ _ _ V v _ ⟨⟨rfl, rfl, rfl⟩, hV, -⟩
    exact ⟨h, hV⟩
  | none =>
    have hx := (congrFun (names_eq h) _).trans (h.placed.names_eq_none hr hd)
    have hV := Lox.Eval.lookup_of_global (M := M) (hdistance.trans hd)
    have hv := Eval.lookup_of_global (μ := μ) hx
    rw [Store.get?_globals] at hV
    have hglobal := h.agree.globals.get? r.name.lexeme
    have hbuiltin := h.agree.builtins.get? r.name.lexeme
    generalize (M.frames.record Lox.Machine.globalFrame).get? r.name.lexeme = G at hV hglobal
    generalize μ.globals.get? r.name.lexeme = g at hv hglobal
    generalize (M.frames.record Lox.Machine.builtinFrame).get? r.name.lexeme = B at hV hbuiltin
    generalize μ.builtins.get? r.name.lexeme = b at hv hbuiltin
    cases hglobal with
    | some hmatches => exact of_eq h hV hv h.agree (Nat.le_refl _) rfl hmatches
    | none =>
      cases hbuiltin with
      | some hmatches => exact of_eq h hV hv h.agree (Nat.le_refl _) rfl hmatches
      | none => exact of_error hV hv (.refl β M) h.agree .issue

/-- Assigning to a name that is there. -/
theorem assign (h : Meets excused β ctx scope M μ) {r : Reference} (hr : Ordinary r.name.lexeme)
    (hdistance : r.distance = ctx.distance? r.name.lexeme) (hmatches : ValueMatches excused β V v) :
    Lockstep excused inside β (Lox.Eval.assign r V) M (Eval.assign scope.names r.name v) μ
      (Yields excused ctx scope fun _ _ _ ↦ True) := by
  cases hd : ctx.distance? r.name.lexeme with
  | some d =>
    obtain ⟨id, rest, l, hdrop, hl, hx⟩ := h.placed.exists_frame hr.2 hd
    obtain ⟨-, W, w, hW, hw, -⟩ := h.agree.located hl
    have hV := Lox.Eval.assign_of_distance (M := M) (hdistance.trans hd) V
    rw [Store.findAt_of_drop hdrop, hW] at hV
    have hv := Eval.assign_of_local (μ := μ) ((congrFun (names_eq h) _).trans hx) v
    exact of_eq h hV hv (h.agree.assign hl hmatches (suits_of_ordinary hr))
      (Nat.le_of_eq (Store.next_bind ..).symm) rfl trivial
  | none =>
    have hx := (congrFun (names_eq h) _).trans (h.placed.names_eq_none hr.2 hd)
    have hV := Lox.Eval.assign_of_global (M := M) (hdistance.trans hd) V
    have hv := Eval.assign_of_global (μ := μ) hx v
    rw [Store.frameOf?_globals, h.agree.globals.contains, h.agree.builtins.contains] at hV
    cases hglobal : μ.globals.contains r.name.lexeme with
    | true =>
      rw [hglobal] at hV hv
      exact of_eq h hV hv (h.agree.bindGlobal _ hmatches)
        (Nat.le_of_eq (Store.next_bind ..).symm) rfl trivial
    | false =>
      cases hbuiltin : μ.builtins.contains r.name.lexeme with
      | true =>
        rw [hglobal, hbuiltin] at hV hv
        exact of_eq h hV hv (h.agree.bindBuiltin _ hmatches)
          (Nat.le_of_eq (Store.next_bind ..).symm) rfl trivial
      | false =>
        rw [hglobal, hbuiltin] at hV hv
        exact of_error hV hv (.refl β M) h.agree .issue

/-- Assigning to a variable that is on the way goes wrong. -/
theorem assign_pending (h : Meets excused β ctx scope M μ) {r : Reference} {xs : List String}
    {outer : Context} (hctx : ctx = .names xs :: outer) (hx : r.name.lexeme ∉ xs)
    (hr : r.distance = some 0) (V : Lox.Value) :
    Lox.Eval.assign r V M = .error (.desync (.unbound r.name.lexeme 0)) M := by
  obtain ⟨id, rest, hcurrent, hnone⟩ := h.unbound hctx hx
  have hdrop : M.current.drop 0 = id :: rest := hcurrent
  rw [Lox.Eval.assign_of_distance hr, Store.findAt_of_drop hdrop, hnone]
  rfl

/-- A new name in the current frame is in scope from then on. -/
theorem names_place {xs : List String} {outer : Context} {id : RecordId} {rest : Environment}
    {x : String} {l : Location} (hplaced : Placed β (.names xs :: outer) (id :: rest))
    (hx : β id x = none) : (β.place id x l).names (.names (x :: xs) :: outer) (id :: rest)
      = Names.extend (β.names (.names xs :: outer) (id :: rest)) x l := by
  have hwithin := Placement.within_place (l := l) hx
  obtain ⟨-, hrest⟩ : _ ∧ Placed β outer rest := by
    cases hplaced with
    | layer hbinds h => exact ⟨hbinds, h⟩
  funext y
  rw [Names.extend, Placement.names, Placement.names, hrest.names_eq hwithin]
  by_cases hy : y = x
  · rw [if_pos hy, hy, Placement.place_self]
    simp [Layer.settles, Layer.binds]
  · rw [if_neg hy, Placement.place_of_ne fun h ↦ hy h.2]
    simp [Layer.settles, Layer.binds, hy]

/-- A new name in the current frame belongs to the context. -/
theorem placed_place {xs : List String} {outer : Context} {id : RecordId} {rest : Environment}
    {x : String} {l : Location} (hplaced : Placed β (.names xs :: outer) (id :: rest))
    (hx : β id x = none) :
    Placed (β.place id x l) (.names (x :: xs) :: outer) (id :: rest) := by
  cases hplaced with
  | layer hbinds hrest =>
    refine .layer (fun y hy ↦ ?_) (hrest.mono (Placement.within_place hx))
    by_cases hyx : y = x
    · rw [hyx, Placement.place_self]
      rfl
    · rw [Placement.place_of_ne fun h ↦ hyx h.2]
      refine hbinds y (decide_eq_true ?_)
      exact (List.mem_cons.mp (of_decide_eq_true hy)).resolve_left hyx

/-- Declaring a name outside of all scopes. -/
theorem declare_global (h : Meets excused β [] scope M μ) {x : String} {value : Names → Value}
    (hV : ValueMatches excused β V (value (β.names [] M.current))) :
    Lockstep excused inside β (Lox.Eval.define x V) M (Eval.declare scope x value) μ
      fun β' M' μ' _ scope' ↦ Meets excused β' [] scope' M' μ' := by
  obtain ⟨hagree, hproper, -, hplaced, hhead, hscope⟩ := h
  have hlocal : scope.isLocal = false := by rw [hscope]; rfl
  have hnames : scope.names = β.names [] M.current := by rw [hscope]; rfl
  have hcurrent : M.current = Lox.Machine.globals := by
    revert hplaced
    generalize M.current = env
    rintro ⟨⟩
    rfl
  refine of_ok (Lox.Eval.define_of_current hcurrent x V)
    (Eval.declare_of_global hlocal x value) (.of_eq ?_ rfl) ?_
  · exact Nat.le_of_eq (Store.next_bind ..).symm
  · exact ⟨hagree.bindGlobal x (hnames ▸ hV), hproper, trivial, hplaced, trivial, hscope⟩

/-- Declaring a name in the innermost scope. It is new there, and so it gets a location. -/
theorem declare_local {xs : List String} {outer : Context}
    (h : Meets excused β (.names xs :: outer) scope M μ) {x : String} (hx : Ordinary x)
    (hnew : x ∉ xs) {value : Names → Value}
    (hV : ∀ β' : Placement, β.Within β' → Placed β' (.names (x :: xs) :: outer) M.current →
      ValueMatches excused β' V (value (β'.names (.names (x :: xs) :: outer) M.current))) :
    Lockstep excused inside β (Lox.Eval.define x V) M (Eval.declare scope x value) μ
      fun β' M' μ' _ scope' ↦ Meets excused β' (.names (x :: xs) :: outer) scope' M' μ' := by
  obtain ⟨hagree, hproper, -, hplaced, hhead, hscope⟩ := h
  have hlocal : scope.isLocal = true := by rw [hscope]; rfl
  have hnames : scope.names = β.names (.names xs :: outer) M.current := by rw [hscope]; rfl
  cases hcurrent : M.current with
  | nil =>
    rw [hcurrent] at hplaced
    cases hplaced
  | cons id rest =>
    rw [hcurrent] at hplaced hhead hV hnames
    obtain ⟨hid, hlt, hexact⟩ := hhead
    -- The name is new in the scope, so it has no location in its frame yet.
    have hnone : β id x = none := by
      by_contra hne
      exact hnew (hexact _ (Option.isSome_iff_ne_none.mpr hne))
    have hwithin := Placement.within_place (l := μ.cells.size) hnone
    have hplaced' := placed_place (l := μ.cells.size) hplaced hnone
    have hextend := names_place (l := μ.cells.size) hplaced hnone
    have hv := hV _ hwithin hplaced'
    rw [hextend, ← hnames] at hv
    refine of_ok (Lox.Eval.define_of_current hcurrent x V)
      (Eval.declare_of_local hlocal x value) ⟨hwithin, ?_, ?_, rfl⟩ ⟨?_, ?_, trivial, ?_, ?_, ?_⟩
    · intro id' _ hne
      funext y
      refine Placement.place_of_ne fun h ↦ hne ?_
      rw [hcurrent, h.1, List.head?_cons]
    · exact Nat.le_of_eq (Store.next_bind ..).symm
    · exact hagree.define hid hlt hnone hv (suits_of_ordinary hx)
    · exact hproper.declare hx
    · rw [hcurrent]
      exact hplaced'
    · rw [hcurrent]
      refine ⟨hid, Nat.lt_of_lt_of_eq hlt (Store.next_bind ..).symm, fun y hy ↦ ?_⟩
      by_cases hyx : y = x
      · rw [hyx]
        exact List.mem_cons_self
      · rw [Placement.place_of_ne fun h ↦ hyx h.2] at hy
        exact List.mem_cons_of_mem _ (hexact y hy)
    · rw [hcurrent, Placement.scope, hnames, ← hextend]
      rfl

/-- Declaring a name. The value may refer to the name itself. -/
theorem declare (h : Meets excused β ctx scope M μ) {x : String} (hx : Ordinary x)
    (hadmits : ctx.Admits x) {value : Names → Value}
    (hV : ∀ β' : Placement, β.Within β' → Placed β' (ctx.declare x) M.current →
      ValueMatches excused β' V (value (β'.names (ctx.declare x) M.current))) :
    Lockstep excused inside β (Lox.Eval.define x V) M (Eval.declare scope x value) μ
      fun β' M' μ' _ scope' ↦ Meets excused β' (ctx.declare x) scope' M' μ' := by
  have hopen := h.isOpen
  match ctx, hopen with
  | [], _ => exact declare_global h (hV β (.refl β) h.placed)
  | .names xs :: outer, _ => exact declare_local h hx hadmits hV

/-! ## Printing and counting -/

theorem newId (h : Meets excused β ctx scope M μ) :
    Lockstep excused inside β Lox.Eval.newId M Eval.newId μ
      (Yields excused ctx scope fun _ n n' ↦ n = n') :=
  of_eq h rfl rfl { h.agree with nextId := congrArg (· + 1) h.agree.nextId } (Nat.le_refl _) rfl
    h.agree.nextId

theorem printLine (h : Meets excused β ctx scope M μ) (line : String) :
    Lockstep excused inside β (Lox.Eval.printLine line) M (Eval.printLine line) μ
      (Yields excused ctx scope fun _ _ _ ↦ True) :=
  of_eq h rfl rfl { h.agree with printed := congrArg (line :: ·) h.agree.printed }
    (Nat.le_refl _) rfl
    trivial

theorem step (h : Meets excused β ctx scope M μ) (host : Host) :
    Lockstep excused inside β (Lox.Eval.step host) M (Eval.step host) μ
      (Yields excused ctx scope fun _ _ _ ↦ True) := by
  have hagree : Matches excused β { M with steps := M.steps + 1 } { μ with steps := μ.steps + 1 } :=
    { h.agree with steps := congrArg (· + 1) h.agree.steps }
  have hV := Lox.Eval.step_run host M
  have hv := Eval.step_run host μ
  rw [← h.agree.steps] at hv
  cases hmax : host.maxSteps with
  | none =>
    rw [hmax] at hV hv
    exact of_eq h hV hv (h.agree.steps ▸ hagree) (Nat.le_refl _) rfl trivial
  | some limit =>
    rw [hmax] at hV hv
    by_cases hlimit : limit < ((M.steps + 1 : Nat) : Int)
    · simp only [if_pos hlimit] at hV hv
      exact of_error hV hv (.of_eq (Nat.le_refl _) rfl) (h.agree.steps ▸ hagree) .issue
    · simp only [if_neg hlimit] at hV hv
      exact of_eq h hV hv (h.agree.steps ▸ hagree) (Nat.le_refl _) rfl trivial

theorem readClock (h : Meets excused β ctx scope M μ) (host : Host) :
    Lockstep excused inside β (Lox.Eval.readClock host) M (Eval.readClock host) μ
      (Yields excused ctx scope fun _ x y ↦ x = y) :=
  of_eq h rfl rfl { h.agree with readings := congrArg (· + 1) h.agree.readings } (Nat.le_refl _) rfl
    (congrArg host.clock h.agree.readings)

theorem callNative (h : Meets excused β ctx scope M μ) (host : Host) (n : Native)
    {Vs : List Lox.Value} {vs : List Value}
    (hmatches : List.Forall₂ (ValueMatches excused β) Vs vs) :
    Lockstep excused inside β (Lox.Eval.callNative host n Vs) M (Eval.callNative host n vs) μ
      (Yields excused ctx scope (ValueMatches excused)) := by
  cases n with
  | clock =>
    refine (readClock h host).map fun β' M' μ' x y ⟨hmeets, hxy⟩ ↦ ⟨hmeets, ?_⟩
    subst hxy
    exact .number
  | toString =>
    have htext : (Vs.headD .nil).text = (vs.headD .nil).text := by
      cases hmatches with
      | nil => rfl
      | cons hV _ => exact hV.text_eq
    refine pure ⟨h, ?_⟩
    rw [htext]
    exact .string

theorem checkCall (h : Meets excused β ctx scope M μ) (hV : ValueMatches excused β V v)
    (paren : Token) (given : Nat) :
    Lockstep excused inside β (Lox.Eval.checkCall V paren given) M (Eval.checkCall v paren given) μ
      (Yields excused ctx scope fun _ _ _ ↦ ∃ name, V.signature? = some (name, given)) := by
  rw [Lox.Eval.checkCall, Eval.checkCall, ← hV.signature?_eq]
  cases hsignature : V.signature? with
  | none => exact fail h.agree ..
  | some signature =>
    obtain ⟨name, arity⟩ := signature
    by_cases hgiven : given = arity
    · simp only [if_pos hgiven]
      exact pure ⟨h, name, by rw [hgiven]⟩
    · simp only [if_neg hgiven]
      exact fail h.agree ..

end Lockstep

end Lox.Lexical
