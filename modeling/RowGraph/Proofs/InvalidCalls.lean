import RowGraph.Proofs.Outcome
import RowGraph.Session.Run

/-!
# Invalid calls

What is wrong with a call that builds a query depends on the schema, and for an order key on the
directions asked for before it (`QueryCall.complaint?`).  A query keeps what is wrong with the first call
that is invalid, whatever comes before or after it (`error_build`), and does not compile.  Whoever asks it
gets this failure, but for a query that names one implicit key and nothing else before the invalid call:
its relations are computed without compiling (`Session.ask_invalid`, `computed_though_invalid`).
-/

namespace RowGraph

/-- The call asks for results in another direction. -/
def QueryCall.ordersOtherwise (wanted : SortOrder) : QueryCall → Bool
  | .orderBy _ d => d != wanted
  | _ => false

/-- What is wrong with a call that is made after others. -/
def QueryCall.complaint? (schema : Schema) (before : List QueryCall) : QueryCall → Option String
  | .constraint c => if c.key.isEmpty then some "constraint key must not be empty" else none
  | .interval key _ _ => if key.isEmpty then some "constraint key must not be empty" else none
  | .orderBy key wanted =>
    match schema.named? key with
    | none => some ("unknown order key " ++ key)
    | some t =>
      if !t.isPropertyKey || t.implicit then some ("order key " ++ key ++ " must be a property key")
      else if before.any (ordersOtherwise wanted) then some "all order keys must share one direction"
      else none
  | _ => none

/-- What is wrong with the first of some calls that is invalid, after those made before. -/
def firstComplaint? (schema : Schema) : (before calls : List QueryCall) → Option String
  | _, [] => none
  | before, call :: rest =>
    match call.complaint? schema before with
    | some message => some message
    | none => firstComplaint? schema (before ++ [call]) rest

variable {schema : Schema} {before calls : List QueryCall} {c : QueryCall} {message : String}

/-- If a call is invalid when it is made there is a first one. -/
theorem exists_firstComplaint {done after : List QueryCall}
    (h : (c.complaint? schema (before ++ done)).isSome = true) :
    ∃ message, firstComplaint? schema before (done ++ c :: after) = some message := by
  induction done generalizing before with
  | nil =>
    obtain ⟨message, hmessage⟩ := Option.isSome_iff_exists.mp h
    rw [List.append_nil] at hmessage
    exact ⟨message, by rw [List.nil_append, firstComplaint?, hmessage]⟩
  | cons d done ih =>
    rw [List.cons_append, firstComplaint?]
    cases hd : d.complaint? schema before with
    | some message => exact ⟨message, rfl⟩
    | none =>
      refine ih ?_
      rwa [List.append_assoc]

/-! ## What a query keeps -/

namespace Query

variable {q : Query}

/-- The query is valid so far, and knows in which direction the calls before it order results. -/
structure Follows (q : Query) (before : List QueryCall) : Prop where
  error : q.error = none
  direction : ∀ d, q.order.direction.any (· != d) = before.any (QueryCall.ordersOtherwise d)

/-- A call that is invalid stays the first one. -/
theorem error_call (h : q.error = some message) (c : QueryCall) :
    (q.call schema c).error = some message := by
  have hsome : q.error.isSome = true := by rw [h]; rfl
  have hconstrain (c : Constraint) : q.constrain c = q := if_pos hsome
  cases c with
  | types names =>
    rw [call, if_pos hsome]
    exact h
  | constraint c =>
    rw [call, hconstrain]
    exact h
  | interval key start stop =>
    rw [call, hconstrain, hconstrain]
    exact h
  | orderBy key direction =>
    rw [call, orderBy, if_pos hsome]
    exact h
  | _ => exact h

theorem error_calls (h : q.error = some message) (calls : List QueryCall) :
    (calls.foldl (Query.call schema) q).error = some message := by
  induction calls generalizing q with
  | nil => exact h
  | cons c calls ih => exact ih (error_call h c)

theorem constrain_of_valid (h : q.error = none) (c : Constraint) : q.constrain c =
    if c.key.isEmpty then { q with error := some "constraint key must not be empty" }
    else { q with constraints := q.constraints ++ [c] } := by
  unfold constrain fail
  simp [h]

/-- A query with the error and the order of a valid one follows the same calls, and any that is not about
the order. -/
theorem Follows.of_same {q' : Query} (h : q.Follows before) (herror : q'.error = q.error)
    (horder : q'.order = q.order) (hc : ∀ d, c.ordersOtherwise d = false) : q'.Follows (before ++ [c]) where
  error := herror.trans h.error
  direction d := by
    rw [horder, h.direction d, List.any_append]
    simp [hc d]

/-- What a call does to a query that is valid so far: it makes it invalid, for what is wrong with the call,
or the query goes on to be valid. -/
def AfterCall (schema : Schema) (before : List QueryCall) (c : QueryCall) (q : Query) : Prop :=
  match c.complaint? schema before with
  | some message => q.error = some message
  | none => q.Follows (before ++ [c])

theorem Follows.orderBy (h : q.Follows before) (key : String) (wanted : SortOrder) :
    AfterCall schema before (.orderBy key wanted) (q.call schema (.orderBy key wanted)) := by
  have hfail (m : String) : (q.fail m).error = some m := by rw [fail, h.error]; rfl
  have hvalid : ¬ q.error.isSome = true := by simp [h.error]
  rw [AfterCall, QueryCall.complaint?, Query.call, Query.orderBy, if_neg hvalid]
  cases hkey : schema.named? key with
  | none => exact hfail _
  | some t =>
    dsimp only
    by_cases hrefused : (!t.isPropertyKey || t.implicit) = true
    · rw [if_pos hrefused, if_pos hrefused]
      exact hfail _
    · rw [if_neg hrefused, if_neg hrefused, ← h.direction wanted, ResultOrder.add?]
      by_cases hmixed : q.order.direction.any (· != wanted) = true
      · rw [if_pos hmixed, if_pos hmixed]
        exact hfail _
      · rw [if_neg hmixed, if_neg hmixed]
        refine ⟨h.error, fun d => ?_⟩
        -- what was wanted before, if anything, is what is wanted now
        rw [List.any_append, ← h.direction d]
        cases hdirection : q.order.direction with
        | none => simp [QueryCall.ordersOtherwise]
        | some d' =>
          obtain rfl : d' = wanted := by simpa [hdirection] using hmixed
          simp [QueryCall.ordersOtherwise]

/-- After valid calls a call makes the query invalid just if there is something wrong with it. -/
theorem Follows.call (h : q.Follows before) (c : QueryCall) :
    AfterCall schema before c (q.call schema c) := by
  cases c with
  | types names =>
    rw [Query.call, if_neg (by simp [h.error])]
    exact h.of_same rfl rfl fun _ => rfl
  | constraint c =>
    rw [AfterCall, QueryCall.complaint?, Query.call, constrain_of_valid h.error]
    cases hkey : c.key.isEmpty with
    | true => rfl
    | false => exact h.of_same rfl rfl fun _ => rfl
  | interval key start stop =>
    rw [AfterCall, QueryCall.complaint?, Query.call, constrain_of_valid h.error]
    cases hkey : key.isEmpty with
    | true => rfl
    | false =>
      have hnamed : ¬ key.isEmpty = true := by simp [hkey]
      rw [if_neg (by decide), constrain_of_valid, if_neg hnamed]
      · exact h.of_same rfl rfl fun _ => rfl
      · exact h.error
  | orderBy key direction => exact h.orderBy key direction
  | _ => exact h.of_same rfl rfl fun _ => rfl

/-- A query keeps what is wrong with the first invalid call. -/
theorem Follows.error_foldl (h : q.Follows before) :
    (calls.foldl (Query.call schema) q).error = firstComplaint? schema before calls := by
  induction calls generalizing q before with
  | nil => exact h.error
  | cons c calls ih =>
    have hc : AfterCall schema before c (q.call schema c) := h.call c
    unfold AfterCall at hc
    rw [List.foldl_cons, firstComplaint?]
    cases hm : c.complaint? schema before with
    | some message =>
      rw [hm] at hc
      exact error_calls hc calls
    | none =>
      rw [hm] at hc
      exact ih hc

theorem error_build (schema : Schema) (settings : QuerySettings) (calls : List QueryCall) :
    (build schema settings calls).error = firstComplaint? schema [] calls :=
  Follows.error_foldl ⟨rfl, fun _ => rfl⟩

/-- An invalid query does not compile. -/
theorem compile_invalid (h : q.error = some message) (s : Setting) (category : Category) :
    q.compile s category = .error (.invalidInput message) := by
  simp only [compile, h]
  rfl

end Query

/-! ## Asking an invalid query -/

variable {S T : Type}

namespace GraphTx

variable {σ : Type} [Metered σ] {g : GraphTx S T} {q : Query}

theorem compile_invalid (h : q.error = some message) (category : Category) (s : σ) :
    (g.compile schema q category).exec s = (.error (.invalidInput message), s) := by
  refine Act.exec_bind_error ?_ _
  rw [Act.exec_ofOutcome, Query.compile_invalid h]

theorem compileToRun_invalid (h : q.error = some message) (category : Category) (s : σ) :
    (g.compileToRun schema q category).exec s = (.error (.invalidInput message), s) :=
  Act.exec_bind_error (compile_invalid h category s) _

theorem askRelations_invalid (h : q.error = some message) {category : Category}
    (himplicit : q.implicitKey? schema category = none) (v : VertexId) (s : σ) :
    (g.askRelations schema q category v).exec s = (.error (.invalidInput message), s) := by
  rw [askRelations, himplicit]
  exact Act.exec_bind_error (compileToRun_invalid h category s) _

theorem askVertices_invalid (h : q.error = some message) (v : VertexId) (s : σ) :
    (g.askVertices schema q v).exec s = (.error (.invalidInput message), s) :=
  Act.exec_bind_error (compileToRun_invalid h .edge s) _

theorem vertexIds_invalid [Timed σ] (h : q.error = some message) (b : Backend σ S T) (v : VertexId)
    (s : σ) : (g.vertexIds b schema q v).exec s = (.error (.invalidInput message), s) :=
  Act.exec_bind_error (compileToRun_invalid h .edge s) _

end GraphTx

namespace Session

variable {rig : Rig S T} {s : Session S T} {name : String} {g : GraphTx S T}

/-- The implicit key that is computed at once, without compiling the query. -/
def Run.implicitKey? (schema : Schema) (q : Query) : Run → Option ImplicitKey
  | .relations category => q.implicitKey? schema category
  | .count => q.implicitKey? schema .relation
  | .vertices => none
  | .vertexIds => none
  | .compile _ => none

/-- The answer that holds the relations found. -/
def Run.answer (found : List Relation) : Run → QueryAnswer
  | .count => .count found.length
  | _ => .results (found.map .relation) none

theorem exec_graph (hg : s.graphs.get? name = some g) : (graph name).exec s = (.ok g, s) := by
  unfold graph named
  rw [Act.exec_bind_ok (Act.exec_asks ..), hg]
  rfl

/-- Asking a graph transaction fails as the transaction does. -/
theorem exec_asking {α β : Type} (hg : s.graphs.get? name = some g)
    (ask : GraphTx S T → Schema → Act Layers α) {e : Failure}
    (h : (ask g s.schema).exec s.layers = (.error e, s.layers))
    (answer : GraphTx S T → Schema → α → Act (Session S T) β) :
    (do
      let g ← graph name
      let schema ← Act.asks Session.schema
      let a ← below (ask g schema)
      answer g schema a).exec s = (.error e, s) := by
  rw [Act.exec_bind_ok (exec_graph hg), Act.exec_bind_ok (Act.exec_asks ..)]
  refine Act.exec_bind_error ?_ _
  rw [below, Act.exec_on, h]

theorem askRelations_invalid (hg : s.graphs.get? name = some g)
    (h : (g.query s.schema calls).error = some message) {category : Category}
    (himplicit : (g.query s.schema calls).implicitKey? s.schema category = none) (v : VertexId) :
    (askRelations rig name calls category v).exec s = (.error (.invalidInput message), s) :=
  exec_asking hg (fun g schema => g.askRelations schema (g.query schema calls) category v)
    (GraphTx.askRelations_invalid h himplicit v s.layers) _

theorem askVertices_invalid (hg : s.graphs.get? name = some g)
    (h : (g.query s.schema calls).error = some message) (v : VertexId) :
    (askVertices rig name calls v).exec s = (.error (.invalidInput message), s) :=
  exec_asking hg (fun g schema => g.askVertices schema (g.query schema calls) v)
    (GraphTx.askVertices_invalid h v s.layers) _

/-- The relations of an implicit key are there when they are pulled. -/
theorem askRelations_computed (rig : Rig S T) (hg : s.graphs.get? name = some g) {category : Category}
    {key : ImplicitKey} (himplicit : (g.query s.schema calls).implicitKey? s.schema category = some key)
    (v : VertexId) :
    ∃ asked, (askRelations rig name calls category v).exec s = (.ok asked, s) ∧
      asked.pull.exec s =
        (.ok (((g.query s.schema calls).implicitAnswer (g.label? v) v key).map .relation), s) := by
  have hasked : (below (g.askRelations s.schema (g.query s.schema calls) category v)).exec s =
      (.ok (.computed ((g.query s.schema calls).implicitAnswer (g.label? v) v key)), s) := by
    rw [GraphTx.askRelations, himplicit]
    rfl
  rw [askRelations, Act.exec_bind_ok (exec_graph hg), Act.exec_bind_ok (Act.exec_asks ..),
    Act.exec_bind_ok hasked]
  refine ⟨_, rfl, ?_⟩
  dsimp only
  rw [Act.exec_bind_ok (exec_graph hg)]
  rfl

theorem pullAll_exec {asked : Asked S T} {found : List Found} (h : asked.pull.exec s = (.ok found, s))
    (items : Bool) : (pullAll asked items).exec s = (.ok (.results found none), s) := by
  rw [pullAll, Act.exec_bind_ok (Act.exec_attempt ..), h]
  rfl

/-- A query that was built with an invalid call is refused, for what is wrong with the first such call,
whatever it is asked for, and nothing changes; but if it names just an implicit key, and is asked for
relations or their number, it is answered as if nothing were wrong. -/
theorem ask_invalid (rig : Rig S T) (hg : s.graphs.get? name = some g)
    (hinvalid : ∃ before c after, calls = before ++ c :: after ∧
      (c.complaint? s.schema before).isSome = true) (run : Run) (v : VertexId) (items : Bool) :
    ∃ message, firstComplaint? s.schema [] calls = some message ∧
      (ask rig name calls run v items).exec s =
        match run.implicitKey? s.schema (g.query s.schema calls) with
        | none => (.error (.invalidInput message), s)
        | some key => (.ok (run.answer ((g.query s.schema calls).implicitAnswer (g.label? v) v key)), s) := by
  obtain ⟨before, c, after, rfl, hc⟩ := hinvalid
  obtain ⟨message, hmessage⟩ : ∃ message, firstComplaint? s.schema [] (before ++ c :: after) = some message :=
    exists_firstComplaint hc
  refine ⟨message, hmessage, ?_⟩
  generalize before ++ c :: after = calls at hmessage
  have herror : (g.query s.schema calls).error = some message :=
    (Query.error_build ..).trans hmessage
  cases run with
  | relations category =>
    dsimp only [Run.implicitKey?]
    rw [ask, askLazily]
    cases himplicit : (g.query s.schema calls).implicitKey? s.schema category with
    | none => exact Act.exec_bind_error (askRelations_invalid hg herror himplicit v) _
    | some key =>
      obtain ⟨asked, hasked, hpull⟩ := askRelations_computed rig hg himplicit v
      rw [Act.exec_bind_ok hasked, pullAll_exec hpull]
      rfl
  | vertices => exact Act.exec_bind_error (askVertices_invalid hg herror v) _
  | vertexIds =>
    exact exec_asking hg (fun g schema => g.vertexIds rig.backend schema (g.query schema calls) v)
      (GraphTx.vertexIds_invalid herror rig.backend v s.layers) _
  | count =>
    dsimp only [Run.implicitKey?]
    rw [ask, askLazily]
    cases himplicit : (g.query s.schema calls).implicitKey? s.schema .relation with
    | none => exact Act.exec_bind_error (askRelations_invalid hg herror himplicit v) _
    | some key =>
      obtain ⟨asked, hasked, hpull⟩ := askRelations_computed rig hg himplicit v
      rw [Act.exec_bind_ok hasked, Act.exec_bind_ok hpull, List.length_map]
      rfl
  | compile category =>
    exact exec_asking hg (fun g schema => g.compile schema (g.query schema calls) category)
      (GraphTx.compile_invalid herror category s.layers) _

/-- The backend in memory without the checking layer. -/
def plainRig : Rig StoreHandle TxHandle := .unchecked Memory.defaultFeatures

/-- A session with a graph transaction, and no types but the implicit keys. -/
def plain : Session StoreHandle TxHandle :=
  ((openGraph plainRig "g" ⟨"edgestore", default, [], none, []⟩).exec (.new .initial .steady)).2

theorem plain_isSome : (plain.graphs.get? "g").isSome = true := by decide +kernel

/-- Its graph transaction. -/
def plainGraph : GraphTx StoreHandle TxHandle := (plain.graphs.get? "g").get plain_isSome

theorem plain_open : plain.graphs.get? "g" = some plainGraph := (Option.some_get plain_isSome).symm

/-- An unknown order key, and then an implicit key. -/
def orderedFirst : List QueryCall := [.orderBy "nope" .asc, .types ["~id"]]

/-- An implicit key, and then an unknown order key. -/
def orderedLast : List QueryCall := [.types ["~id"], .orderBy "nope" .asc]

theorem ask_invalid_plain :
    (ask plainRig "g" orderedFirst (.relations .property) ⟨7⟩ true).exec plain =
      (.error (.invalidInput "unknown order key nope"), plain) := by
  have hinvalid : ∃ before c after, orderedFirst = before ++ c :: after ∧
      (QueryCall.complaint? plain.schema before c).isSome = true :=
    ⟨[], .orderBy "nope" .asc, [.types ["~id"]], rfl, by decide +kernel⟩
  obtain ⟨message, hmessage, hask⟩ := ask_invalid plainRig plain_open hinvalid
    (.relations .property) ⟨7⟩ true
  have himplicit : Run.implicitKey? plain.schema (plainGraph.query plain.schema orderedFirst)
      (.relations .property) = none := by decide +kernel
  have hfirst : firstComplaint? plain.schema [] orderedFirst = some "unknown order key nope" := by
    decide +kernel
  obtain rfl := Option.some.inj (hfirst.symm.trans hmessage)
  rw [himplicit] at hask
  exact hask

/-- The invalid call is not heard of. -/
theorem computed_though_invalid :
    firstComplaint? plain.schema [] orderedLast = some "unknown order key nope" ∧
      (ask plainRig "g" orderedLast (.relations .property) ⟨7⟩ true).exec plain =
        (.ok (.results [.relation (.property ⟨0⟩ ImplicitKey.id.typeId ⟨7⟩ (.int 7))] none), plain) := by
  refine ⟨by decide +kernel, ?_⟩
  have himplicit : (plainGraph.query plain.schema orderedLast).implicitKey? plain.schema .property =
      some .id := by decide +kernel
  have hanswer : (plainGraph.query plain.schema orderedLast).implicitAnswer (plainGraph.label? ⟨7⟩) ⟨7⟩ .id =
      [.property ⟨0⟩ ImplicitKey.id.typeId ⟨7⟩ (.int 7)] := by decide +kernel
  obtain ⟨asked, hasked, hpull⟩ := askRelations_computed plainRig plain_open himplicit ⟨7⟩
  rw [hanswer] at hpull
  exact (Act.exec_bind_ok hasked _).trans (pullAll_exec hpull true)

end Session

end RowGraph
