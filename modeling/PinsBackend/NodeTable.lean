import Std.Data.TreeMap

/-! Tables that say one thing about each node of a syntax tree.

A pass owns its table and never revises an entry: a second write to a node is ignored. -/
namespace PinsBackend

/-- The identity of a node: its place in the arena. -/
abbrev NodeId := Nat

namespace NodeId

def text (id : NodeId) : String := "#" ++ toString id

end NodeId

structure NodeTable (α : Type) where
  entries : Std.TreeMap NodeId α := {}

namespace NodeTable

variable {α : Type}

def empty : NodeTable α := {}

instance : Inhabited (NodeTable α) := ⟨empty⟩

def get? (t : NodeTable α) (id : NodeId) : Option α := t.entries[id]?

def contains (t : NodeTable α) (id : NodeId) : Bool := t.entries.contains id

/-- Describes a node that has no entry yet; a node that has one keeps it. -/
def insert (t : NodeTable α) (id : NodeId) (a : α) : NodeTable α :=
  ⟨t.entries.insertIfNew id a⟩

def size (t : NodeTable α) : Nat := t.entries.size

/-- Entries in the order of their nodes. -/
def toList (t : NodeTable α) : List (NodeId × α) := t.entries.toList

/-- The table of some entries; of two entries for a node the first counts. -/
def ofList (entries : List (NodeId × α)) : NodeTable α :=
  entries.foldl (fun t p => t.insert p.1 p.2) empty

@[simp] theorem get?_empty (id : NodeId) : (empty : NodeTable α).get? id = none := by
  simp [empty, get?]

theorem get?_insert (t : NodeTable α) (id j : NodeId) (a : α) :
    (t.insert id a).get? j = if j = id then (t.get? id).or (some a) else t.get? j := by
  simp only [insert, get?, Std.TreeMap.getElem?_insertIfNew]
  by_cases h : j = id
  · subst h
    by_cases m : j ∈ t.entries
    · simp [m]
    · simp [m]
  · have : id ≠ j := Ne.symm h
    simp [h, this]

end NodeTable
end PinsBackend
