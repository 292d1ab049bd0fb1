import RowGraph.Session.Step

/-!
# Sessions

A session carries steps out one after another over the layers of a rig. It has one schema, one
clock, one set of counters and settings that are not looked through before use.
-/

namespace RowGraph

/-- The state of a session. -/
structure Session (S T : Type) where
  schema : Schema
  settings : Settings
  layers : Layers
  /-- The stores last opened by each name. -/
  stores : SortedMap String S
  transactions : SortedMap String T
  graphs : SortedMap String (GraphTx S T)

namespace Session

variable {S T α : Type}

/-- The state before the first step. -/
def new (schema : Schema) (settings : Settings) : Session S T :=
  ⟨schema, settings, .new (.new .new), .empty, .empty, .empty⟩

/-- A call of the layers. -/
def below (act : Act Layers α) : Act (Session S T) α :=
  act.on layers fun l s => { s with layers := l }

/-- What has a name. -/
def named (what : String) (m : Session S T → SortedMap String α) (name : String) :
    Act (Session S T) α := do
  match ← Act.asks fun s => (m s).get? name with
  | some a => return a
  | none => throw (.notFound what)

/-- The store last opened by a name. -/
def store (name : String) : Act (Session S T) S := named "store" stores name

/-- The transaction with a name. -/
def transaction (name : String) : Act (Session S T) T := named "transaction" transactions name

/-- The graph transaction with a name. -/
def graph (name : String) : Act (Session S T) (GraphTx S T) := named "graph" graphs name

/-- Replaces the graph transaction with a name. -/
def setGraph (name : String) (g : GraphTx S T) : Act (Session S T) Unit :=
  Act.update fun s => { s with graphs := s.graphs.put name g }

/-- A call that changes a graph transaction. -/
def inGraph (name : String) (act : Act (GraphTx S T × Layers) α) : Act (Session S T) α := do
  let g ← graph name
  Act.of fun s =>
    let r := act.exec (g, s.layers)
    (r.1, { s with layers := r.2.2, graphs := s.graphs.put name r.2.1 })

/-- A transaction as it is. -/
def showTx (rig : Rig S T) (tx : T) : Act (Session S T) Answer := do
  let l ← Act.asks layers
  return .tx ⟨rig.backend.txId tx l, rig.backend.options tx l⟩ (rig.joint? tx l)

/-- The greatest column that `rows` looks at. -/
def lastColumn : Bytes := List.replicate 64 0xFF

/-- The rows of some keys in a store of the backend in memory. -/
def rowsOf (s : Session S T) (name : String) (keys : List Bytes) : List (Nat × List Entry) :=
  let table := s.layers.base.base.memory.contents name
  keys.map fun key => ((table.row key).size, table.read key ⟨[], lastColumn, none⟩)

/-- What a graph transaction shows of a vertex. -/
def viewVertex (g : GraphTx S T) (v : VertexId) : VertexView where
  loaded := g.isLoaded v
  partitioned := g.isPartitioned v
  representatives := g.representatives v false
  localRepresentatives := g.representatives v true
  canonical := g.canonical v
  label := g.label? v
  added := g.addedAt v

/-- Opens a graph transaction. -/
def openGraph (rig : Rig S T) (name : String) (o : Opening) : Act (Session S T) Answer := do
  let settings ← Act.asks settings
  let g ← below (GraphTx.start rig.backend o.store (settings.changed o.change))
  let g := o.partitioned.foldl (fun g p => g.withPartitioned p.1 p.2) g
  let g := match o.localPartitions with
    | some near => g.withLocalPartitions near
    | none => g
  let g := o.labels.foldl (fun g l => g.withLabel l.1 l.2) g
  setGraph name g
  return .number (← below (g.txId rig.backend))

/-! ## Queries -/

/-- A lazy answer in a session: was it started, and how is it pulled? -/
structure Asked (S T : Type) where
  started : Bool
  pull : Act (Session S T) (List Found)

/-- Asks for relations. -/
def askRelations (rig : Rig S T) (name : String) (calls : List QueryCall) (category : Category)
    (v : VertexId) : Act (Session S T) (Asked S T) := do
  let g ← graph name
  let schema ← Act.asks schema
  let answer ← below (g.askRelations schema (g.query schema calls) category v)
  return ⟨answer.isStarted, do
    let g ← graph name
    return (← below (g.pullRelations rig.backend answer)).map .relation⟩

/-- Asks for adjacent vertices. -/
def askVertices (rig : Rig S T) (name : String) (calls : List QueryCall) (v : VertexId) :
    Act (Session S T) (Asked S T) := do
  let g ← graph name
  let schema ← Act.asks schema
  let answer ← below (g.askVertices schema (g.query schema calls) v)
  return ⟨answer.isStarted, do
    let g ← graph name
    return (← below (g.pullVertices rig.backend answer)).map .vertex⟩

/-- Asks a query whose answer is lazy. -/
def askLazily (rig : Rig S T) (name : String) (calls : List QueryCall) (run : Run)
    (v : VertexId) : Act (Session S T) (Asked S T) :=
  match run with
  | .relations category => askRelations rig name calls category v
  | .count => askRelations rig name calls .relation v
  | _ => askVertices rig name calls v

/-- All results of a lazy answer. -/
def pullAll (asked : Asked S T) (items : Bool) : Act (Session S T) QueryAnswer := do
  match ← asked.pull.attempt with
  | .ok found => return .results found none
  | .error f => if items then return .results [] (some f) else throw f

/-- Asks a query and pulls its answer. -/
def ask (rig : Rig S T) (name : String) (calls : List QueryCall) (run : Run) (v : VertexId)
    (items : Bool) : Act (Session S T) QueryAnswer := do
  match run with
  | .relations _ => pullAll (← askLazily rig name calls run v) items
  | .vertices => pullAll (← askLazily rig name calls run v) items
  | .count => return .count (← (← askLazily rig name calls run v).pull).length
  | .vertexIds =>
    let g ← graph name
    let schema ← Act.asks schema
    return .vertexIds (← below (g.vertexIds rig.backend schema (g.query schema calls) v))
  | .compile category =>
    let g ← graph name
    let schema ← Act.asks schema
    return .compiled (← below (g.compile schema (g.query schema calls) category))

/-- How many slices were ever read. -/
def slices : Act (Session S T) Nat := Act.asks fun s => (Metered.metrics s.layers).slices

/-- Counts the slices that are read for an answer. -/
def counted (act : Act (Session S T) QueryAnswer) : Act (Session S T) Answer := do
  let before ← slices
  let answer ← act
  return .query answer ((← slices) - before)

/-- The first pull of a lazy answer and what it leaves. -/
def pullFirst (asked : Asked S T) (slicesBefore : Nat) : Act (Session S T) QueryAnswer := do
  let outcome ← asked.pull.attempt
  let (first, rest) : Option (Outcome Found) × List Found := match outcome with
    | .error f => (some (.error f), [])
    | .ok [] => (none, [])
    | .ok (found :: rest) => (some (.ok found), rest)
  return .pulled {
    created := LazyAnswer.debugText asked.started 0
    slicesBefore := slicesBefore
    first := first
    pulled := LazyAnswer.debugText true rest.length
    rest := rest }

/-! ## Steps -/

/-- Carries a basic step out. -/
def runBasic (rig : Rig S T) : Basic → Act (Session S T) Answer
  | .plan call outcomes => do
    below (Act.update fun l => { l with base := l.base.plan call outcomes })
    return .done
  | .log => do
    let lines ← Act.asks fun s => s.layers.base.log
    below (Act.update fun l => { l with base.log := [] })
    return .lines lines
  | .advance d => do
    below (Act.update (passTime d))
    return .done
  | .sleeps => do return .spans (← Act.asks fun s => (Timed.clock s.layers).sleeps)
  | .metrics => do return .metrics (← Act.asks fun s => Metered.metrics s.layers)
  | .held locker => do
    return .number (← Act.asks fun s => s.layers.base.base.lockers.heldCount locker)
  | .schema step => do
    return .schema (← (Schema.step step).on schema fun schema s => { s with schema := schema })
  | .rows name keys => do return .rows (← Act.asks fun s => s.rowsOf name keys)
  | .backend => return .backend rig.backend.name rig.backend.features rig.innerLocking
  | .close => do
    below rig.backend.close
    return .done
  | .openStore name => do
    let last ← Act.asks fun s => s.stores.get? name
    let opened ← below (rig.backend.openStore name)
    Act.update fun s => { s with stores := s.stores.put name opened }
    return .opened (rig.backend.storeName opened) (last.map (rig.same opened))
  | .beginTx name options foreign => do
    let tx ← below (if foreign then rig.foreign options else rig.backend.beginTx options)
    Act.update fun s => { s with transactions := s.transactions.put name tx }
    showTx rig tx
  | .showTx name stamp => do
    let tx ← transaction name
    if let some micros := stamp then below (Act.update (rig.backend.stamp tx micros))
    showTx rig tx
  | .lock name tx target expected => do
    let tx ← transaction tx
    let opened ← store name
    below (rig.backend.lock opened target.key target.column expected tx)
    return .done
  | .read name tx key slice => do
    let tx ← transaction tx
    let opened ← store name
    return .entries (← below (rig.backend.read opened key slice tx))
  | .mutate name tx key m => do
    let tx ← transaction tx
    let opened ← store name
    below (rig.backend.mutate opened key m tx)
    return .done
  | .mutateMany tx rows => do
    let tx ← transaction tx
    below (rig.backend.mutateMany (RowMutation.batch rows) tx)
    return .done
  | .prepare tx => do return .flag (← below (rig.prepare (← transaction tx)))
  | .commitTx tx => do
    below (rig.backend.commit (← transaction tx))
    return .done
  | .rollbackTx tx => do
    below (rig.backend.rollback (← transaction tx))
    return .done
  | .openGraph name opening => openGraph rig name opening
  | .add name relations => do
    let g ← graph name
    setGraph name (relations.foldl GraphTx.add g)
    return .done
  | .remove name relations => do
    let g ← graph name
    setGraph name (relations.foldl GraphTx.remove g)
    return .done
  | .commit name => do
    inGraph name (GraphTx.commit rig.backend (← Act.asks schema))
    return .done
  | .rollback name => do
    inGraph name (GraphTx.rollback rig.backend)
    return .done
  | .txId name => do
    let g ← graph name
    return .number (← below (g.txId rig.backend))
  | .state name vertices removed => do
    let g ← graph name
    return .state g.hasModifications (vertices.map (viewVertex g)) (removed.map g.isRemoved)
  | .readSlice name v slice => do
    let g ← graph name
    return .relations (← below (g.readSlice rig.backend v slice))
  | .ask name calls run v items => counted (ask rig name calls run v items)

mutual

/-- Carries a step out. -/
def run (rig : Rig S T) : Step → Act (Session S T) Answer
  | .basic step => runBasic rig step
  | .askAround name calls run v meanwhile => counted do
    let before ← slices
    let asked ← askLazily rig name calls run v
    runMeanwhile rig meanwhile
    pullFirst asked ((← slices) - before)

/-- Carries steps out up to the first that fails. -/
def runMeanwhile (rig : Rig S T) : List Step → Act (Session S T) Unit
  | [] => return ()
  | step :: rest => do
    let _ ← run rig step
    runMeanwhile rig rest

end

/-- The answers to all steps; the session goes on after a failure. -/
def answers (rig : Rig S T) : List Step → Session S T → List (Outcome Answer)
  | [], _ => []
  | step :: rest, s =>
    let (answer, s) := (run rig step).exec s
    answer :: answers rig rest s

end Session

end RowGraph
