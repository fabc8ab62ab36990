import Mathlib.Data.Char
import Mathlib.Data.List.Lex
import Mathlib.Data.List.Nodup
import Rtorrent.LuaConversion

/-! # Objects that go through Lua

Lists and maps both become tables, and a table is read as a list when the first key that is met is
1, or a string that Lua converts to 1. -/
namespace LuaRoundTrip

open RpcTextParser LuaConversion
open RpcCommandParser (cString cString_of_not_mem)
open ObjectStorage (insertEntry)

/-- The objects that the conversion is asked of. The keys of a map are in order, as in a
`std::map`. -/
inductive Plain : Object → Prop where
  | value {v : ℤ} : -2 ^ 53 ≤ v → v ≤ 2 ^ 53 → Plain (.value v)
  | string {s : Text} : '\x00' ∉ s → Plain (.string s)
  | list {items : List Object} : items ≠ [] → (∀ item ∈ items, Plain item) → Plain (.list items)
  | map {entries : List (Text × Object)} : entries.Pairwise (fun e f => e.1 < f.1) →
    (∀ e ∈ entries, '\x00' ∉ e.1) → (∀ e ∈ entries, Plain e.2) → Plain (.map entries)

def array (first : ℕ) : List LuaValue → Table
  | [] => []
  | v :: vs => (.number first, v) :: array (first + 1) vs

mutual

/-- The value that is pushed for an object. -/
def luaOf : Object → LuaValue
  | .value v => .number v
  | .none => .nil
  | .string s => .string (cString s)
  | .list items => .table (array 1 (luaItems items))
  | .map entries => .table (luaEntries entries)
  | .rawString s => .number (typeNumber (.rawString s))
  | .dictKey flag key obj => .number (typeNumber (.dictKey flag key obj))

def luaItems : List Object → List LuaValue
  | [] => []
  | item :: items => luaOf item :: luaItems items

def luaEntries : List (Text × Object) → Table
  | [] => []
  | (key, obj) :: entries => (.string key, luaOf obj) :: luaEntries entries

end

variable {obj : Object}

variable {t : Table}

variable {entries : List (Text × Object)}

section Order

variable {α β : Type} (lua : Lua) {key : α → LuaKey} {l : List α}

end Order

/-- The value is read as the object and the stack is left as it was. -/
def Reads (convert : Stack → Option (Object × Stack)) (v : LuaValue) (obj : Object) : Prop :=
  ∀ rest, convert (v :: rest) = some (obj, v :: rest)

section Loops

variable {lua : Lua} {convert : Stack → Option (Object × Stack)} {t : Table} {later : Table}
  {v : LuaValue}

variable {done : Table}

end Loops

/-- With enough levels the value is read as the object. -/
def Converts (lua : Lua) (v : LuaValue) (obj : Object) : Prop :=
  ∃ n, ∀ depth, n ≤ depth → Reads (luaToObject lua depth) v obj

section Tables

variable {lua : Lua}

theorem Converts.unique {v : LuaValue} {a b : Object} (ha : Converts lua v a)
    (hb : Converts lua v b) :
    a = b := by
  obtain ⟨m, hm⟩ := ha
  obtain ⟨n, hn⟩ := hb
  have heq := (hm (max m n) (le_max_left m n) []).symm.trans (hn (max m n) (le_max_right m n) [])
  exact (Prod.mk.inj (Option.some.inj heq)).1

variable {objs : List Object}

variable {t : Table}

end Tables

variable {key : Text}

def insertAll (entries : List (Text × Object)) : List (Text × Object) :=
  entries.foldl (fun acc e => insertEntry e.1 e.2 acc) []

section Entries

variable (lua : Lua) {entries : List (Text × Object)} (hs : entries.Pairwise fun e f => e.1 < f.1)
include hs

end Entries

end LuaRoundTrip
