import FastGraph.Index.SkipList
import FastGraph.Misc.Exceptions
import FastGraph.Misc.Outcome

/-!
# The property index

`PropertyIndex` (`index/property_index.cpp`): a skip list of node ids for each pair of a
label and a property, and for each node what it was indexed under. The ids are stored as
numerals and read back with `std::stoi`.
-/

namespace FastGraph

/-- `class PropertyIndex` (`property_index.hpp:7-37`). -/
structure PropertyIndex (D : Type) where
  indices : UnorderedMap Bytes (SkipList D)
  nodeEntries : UnorderedMap Int (List (Bytes × D))

namespace PropertyIndex
variable {D : Type}

/-- An index without entries. -/
def empty : PropertyIndex D := ⟨∅, ∅⟩

/-- `PropertyIndex::make_key` (`property_index.hpp:29-31`). -/
def makeKey (label prop : Bytes) : Bytes := label ++ str "." ++ prop

variable [Inhabited D] [BEq D] [LT D] [DecidableLT D] [LE D] [DecidableLE D]

/-- `PropertyIndex::add` (`property_index.cpp:4-14`); `coins` are those of the call of
`random_level`, if there is one. -/
def add (p : PropertyIndex D) (label prop : Bytes) (value : D) (nodeId : Int) (coins : List Bool) :
    Option (PropertyIndex D) := do
  let key := makeKey label prop
  let list := (p.indices.find key).getD .empty
  let list ← list.insert coins value (decimalInt nodeId)
  some {
    indices := p.indices.set key list
    nodeEntries := p.nodeEntries.set nodeId ((p.nodeEntries.find nodeId).getD [] ++ [(key, value)]) }

/-- One iteration of the loop of `remove_node` (`property_index.cpp:33-37`). -/
def removeEntry (nodeId : Int) (indices : UnorderedMap Bytes (SkipList D)) (entry : Bytes × D) :
    Option (UnorderedMap Bytes (SkipList D)) :=
  match indices.find entry.1 with
  | none => some indices
  | some list => do
    let (list, _) ← list.remove entry.2 (decimalInt nodeId)
    some (indices.set entry.1 list)

/-- `PropertyIndex::remove` (`property_index.cpp:17-28`), of which the search in the lists is that
of `remove_node` for one entry. -/
def remove (p : PropertyIndex D) (label prop : Bytes) (value : D) (nodeId : Int) :
    Option (PropertyIndex D) := do
  let key := makeKey label prop
  let indices ← removeEntry nodeId p.indices (key, value)
  let entries := (p.nodeEntries.find nodeId).getD []
  some {
    indices := indices
    nodeEntries := p.nodeEntries.set nodeId
      (entries.filter fun e => !(e.1 == key && e.2 == value)) }

/-- `PropertyIndex::remove_node` (`property_index.cpp:30-39`), which does not look at the
label. -/
def removeNode (p : PropertyIndex D) (nodeId : Int) : Option (PropertyIndex D) :=
  match p.nodeEntries.find nodeId with
  | none => some p
  | some entries => do
    let indices ← entries.foldlM (removeEntry nodeId) p.indices
    some { indices := indices, nodeEntries := p.nodeEntries.erase nodeId }

/-- `PropertyIndex::range` (`property_index.cpp:41-54`). -/
def range (p : PropertyIndex D) (label prop : Bytes) (minVal maxVal : D) :
    Outcome StdException (List Int) :=
  match p.indices.find (makeKey label prop) with
  | none => pure []
  | some list => do
    let results ← Outcome.ofOption (list.rangeByScore minVal maxVal)
    results.mapM fun r => Outcome.ofExcept (readNumber .stoi (stoi r.2))

/-- `PropertyIndex::exact` (`property_index.cpp:56-60`). -/
def exact (p : PropertyIndex D) (label prop : Bytes) (value : D) :
    Outcome StdException (List Int) :=
  p.range label prop value value

/-! ### Runs -/

/-- The calls that change the index. -/
inductive Call (D : Type) where
  | add (label prop : Bytes) (value : D) (nodeId : Int) (coins : List Bool)
  | remove (label prop : Bytes) (value : D) (nodeId : Int)
  | removeNode (label : Bytes) (nodeId : Int)
  deriving DecidableEq, Repr

/-- One call. -/
def call (p : PropertyIndex D) : Call D → Option (PropertyIndex D)
  | .add label prop value nodeId coins => p.add label prop value nodeId coins
  | .remove label prop value nodeId => p.remove label prop value nodeId
  | .removeNode _ nodeId => p.removeNode nodeId

/-- The index after a sequence of calls. -/
def run (calls : List (Call D)) (p : PropertyIndex D) : Option (PropertyIndex D) :=
  calls.foldlM call p

end PropertyIndex

end FastGraph
