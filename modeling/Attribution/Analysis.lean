import Attribution.Binding
import Attribution.Rule.Effect
/-!
# The analysis

A tree is walked, its names are bound, and the rules run to the end. What remains is the contents
of the cells, the scopes and the findings.
-/
namespace Attribution

structure Config where
  /-- The one name that a template parameter may have. -/
  placeholderName : String := "T"
  duplicates : DuplicatePolicy := .report
deriving DecidableEq, Repr

/-- The attributes of the built-ins, which are there before the walk. -/
def Builtin.commands (b : Builtin) : List (Command Rule) :=
  .set (Entity.builtin b).type (.type b.valueType) ::
    b.denoted?.toList.map fun denoted => .set (Entity.builtin b).declared (.type denoted)

/-- All that is settled before the first rule fires. -/
structure Preparation where
  binder : Binder
  /-- What the engine is told: the attributes of the built-ins, then what comes of the walk. -/
  commands : List (Command Rule)
  setting : Setting

namespace Preparation

/-- Walk a tree, bind its names, and settle which nodes can depend on a placeholder. -/
def ofTree (config : Config) (tree : Tree) : Except Fault Preparation := do
  let actions ← tree.walk
  let (binder, commands) := (Binder.start tree.root).actAll tree config.duplicates actions
  let dependence ← Dependence.of tree (binder.entity? tree)
  return {
    binder
    commands := Builtin.all.flatMap Builtin.commands ++ commands
    setting :=
      { tree, placeholderName := config.placeholderName, scopes := binder.scopes, dependence } }

def engine (preparation : Preparation) : Engine Rule :=
  preparation.commands.foldl Engine.obey {}

end Preparation

structure Analysis where
  engine : Engine Rule
  scopes : ScopeTree

namespace Analysis

/-- Analyse a tree. There is no result only if the walk meets a node that does not exist or that
contains itself. -/
def ofTree (config : Config) (tree : Tree) : Except Fault Analysis := do
  let preparation ← Preparation.ofTree config tree
  return {
    engine := preparation.engine.run preparation.setting
    scopes := preparation.binder.scopes }

def get? (analysis : Analysis) (cell : Cell) : Option Value := analysis.engine.view cell

/-- Every cell that holds a value, in the order of cells. -/
def attributes (analysis : Analysis) : List (Cell × Value) := analysis.engine.cells.toList

def findings (analysis : Analysis) : List Finding := analysis.engine.findings

def conflicts (analysis : Analysis) : List Conflict := analysis.engine.conflicts

def stalled (analysis : Analysis) : Nat := analysis.engine.stalled

def isOk (analysis : Analysis) : Bool := analysis.findings.isEmpty

def typeOf? (analysis : Analysis) (id : NodeId) : Option Ty := analysis.engine.view.type? id

def valueOf? (analysis : Analysis) (id : NodeId) : Option Ty := analysis.engine.view.value? id

def declaredOf? (analysis : Analysis) (entity : Entity) : Option Ty :=
  (analysis.get? entity.declared).bind Value.type?

def declOf? (analysis : Analysis) (id : NodeId) : Option Entity := analysis.engine.view.decl? id

def scopeOf? (analysis : Analysis) (id : NodeId) : Option ScopeId :=
  analysis.engine.view.scope? id

def returnsOf? (analysis : Analysis) (id : NodeId) : Option Bool :=
  analysis.engine.view.returns? id

def indexOf? (analysis : Analysis) (id : NodeId) : Option Nat := analysis.engine.view.index? id

/-- The analysis if nothing was found, all findings otherwise. -/
def result (analysis : Analysis) : Except (List Finding) Analysis :=
  if analysis.isOk then .ok analysis else .error analysis.findings

end Analysis

end Attribution
