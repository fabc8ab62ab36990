import Mathlib.Data.Rat.Defs
import Rtorrent.ObjectStorage

/-! # Objects and Lua values

`object_to_lua` pushes an object on the Lua stack and `lua_to_object` reads the value on its top.
The stack is a list with the top first. -/
namespace LuaConversion

open RpcTextParser
open RpcCommandParser (cString)
open ObjectStorage (insertEntry)

/-- The keys of tables that these functions meet. -/
inductive LuaKey where
  | number (q : ℚ)
  | string (s : Text)
  | boolean (b : Bool)
  deriving DecidableEq

inductive LuaValue where
  | nil
  | number (q : ℚ)
  | string (s : Text)
  | boolean (b : Bool)
  | table (entries : List (LuaKey × LuaValue))

abbrev Table := List (LuaKey × LuaValue)
abbrev Stack := List LuaValue

/-- What depends on the Lua library: which numbers strings are converted to and numbers are
rounded to, and the order in which `lua_next` goes through keys. -/
structure Lua where
  toNumber : Text → Option ℚ
  toDouble : ℚ → ℚ
  numberText : ℚ → Text
  order : List LuaKey → List LuaKey
  toDouble_exact : ∀ n : ℤ, -2 ^ 53 ≤ n → n ≤ 2 ^ 53 → toDouble n = n
  order_perm : ∀ keys, (order keys).Perm keys
  order_array : ∀ n : ℕ, order ((List.range' 1 n).map fun i : ℕ => .number i) =
    (List.range' 1 n).map fun i : ℕ => .number i

def LuaKey.value : LuaKey → LuaValue
  | .number q => .number q
  | .string s => .string s
  | .boolean b => .boolean b

def keyOf : LuaValue → Option LuaKey
  | .number q => some (.number q)
  | .string s => some (.string s)
  | .boolean b => some (.boolean b)
  | _ => none

/-- The field becomes the value, or goes away if it is nil. -/
def setField (k : LuaKey) : LuaValue → Table → Table
  | .nil, t => t.filter fun e => e.1 ≠ k
  | v, [] => [(k, v)]
  | v, e :: t => if e.1 = k then (k, v) :: t else e :: setField k v t

/-- The value on the top is popped and becomes a field of the table at an index counted from the
bottom. -/
def setAt (idx : ℕ) (k : LuaKey) (v : LuaValue) (stack : Stack) : Stack :=
  stack.modify (stack.length - idx) fun
    | .table t => .table (setField k v t)
    | other => other

def rawSetI (idx index : ℕ) : Stack → Stack
  | v :: stack => setAt idx (.number index) v stack
  | [] => []

def rawSet (idx : ℕ) : Stack → Stack
  | v :: k :: stack =>
    match keyOf k with
    | some k => setAt idx k v stack
    | none => stack
  | stack => stack

def entriesBehind (key : LuaKey) : Table → Option Table
  | [] => none
  | e :: t => if e.1 = key then some t else entriesBehind key t

section

variable (lua : Lua)

/-- The elements of a list in the order of `lua_next` on their keys. -/
def visitBy {α : Type} (key : α → LuaKey) (l : List α) : List α :=
  (lua.order (l.map key)).filterMap fun k => l.find? fun a => key a = k

def visit (t : Table) : Table := visitBy lua Prod.fst t

/-- The entries behind a key in the order of `lua_next`, all for nil. A key that is not in the
table is an error. -/
def entriesAfter (t : Table) : LuaValue → Option Table
  | .nil => some (visit lua t)
  | k => (keyOf k).bind fun key => entriesBehind key (visit lua t)

/-- `lua_next(l_state, -2)`: the key is popped and the next key and value are pushed, if there
are. -/
def luaNext : Stack → Option (Bool × Stack)
  | k :: .table t :: rest =>
    match entriesAfter lua t k with
    | none => none
    | some [] => some (false, .table t :: rest)
    | some ((key, v) :: _) => some (true, v :: key.value :: .table t :: rest)
  | _ => none

/-- `lua_tonumber` where `lua_isnumber`: a number, or a string that can be converted to one. -/
def numberOf : LuaValue → Option ℚ
  | .number q => some (lua.toDouble q)
  | .string s => lua.toNumber s
  | _ => none

/-- `lua_tostring` of a copy. There is none for a boolean. -/
def textOf : LuaValue → Option Text
  | .string s => some (cString s)
  | .number q => some (lua.numberText q)
  | _ => none

end

/-- The number of a type in libtorrent. -/
def typeNumber : Object → ℕ
  | .none => 0
  | .rawString _ => 2
  | .value _ => 5
  | .string _ => 6
  | .list _ => 7
  | .map _ => 8
  | .dictKey .. => 9

mutual

def objectToLua : Object → Stack → Stack
  | .value v, stack => .number v :: stack
  | .none, stack => .nil :: stack
  | .string s, stack => .string (cString s) :: stack
  | .list items, stack => itemsToLua (stack.length + 1) 1 items (.table [] :: stack)
  | .map entries, stack => entriesToLua (stack.length + 1) entries (.table [] :: stack)
  | .rawString s, stack => .number (typeNumber (.rawString s)) :: stack
  | .dictKey flag key obj, stack => .number (typeNumber (.dictKey flag key obj)) :: stack

def itemsToLua (tableIdx index : ℕ) : List Object → Stack → Stack
  | [], stack => stack
  | item :: items, stack =>
    itemsToLua tableIdx (index + 1) items (rawSetI tableIdx index (objectToLua item stack))

def entriesToLua (tableIdx : ℕ) : List (Text × Object) → Stack → Stack
  | [], stack => stack
  | (key, obj) :: entries, stack =>
    entriesToLua tableIdx entries (rawSet tableIdx (objectToLua obj (.string key :: stack)))

end

section

variable (lua : Lua) (convert : Stack → Option (Object × Stack))

/-- The rest of the list branch, with a value on the top. -/
def listLoop : ℕ → List Object → Stack → Option (Object × Stack)
  | 0, _, _ => none
  | turns + 1, items, stack => do
    let (item, stack) ← convert stack
    let (more, stack) ← luaNext lua (stack.drop 1)
    if more then listLoop turns (items ++ [item]) stack
    else some (.list (items ++ [item]), stack)

/-- The loop of the map branch, with a key on the top. -/
def mapLoop : ℕ → List (Text × Object) → Stack → Option (Object × Stack)
  | 0, _, _ => none
  | turns + 1, entries, stack => do
    let (more, stack) ← luaNext lua stack
    if more then
      let key ← (stack[1]?).bind (textOf lua)
      let (obj, stack) ← convert stack
      mapLoop turns (insertEntry key obj entries) (stack.drop 1)
    else some (.map entries, stack)

end

/-- A `double` as an `int64_t`. -/
def truncate (q : ℚ) : ℤ := q.num.tdiv q.den

/-- Calls of itself go down at most `depth` levels, and each loop has a turn for each entry. -/
def luaToObject (lua : Lua) : ℕ → Stack → Option (Object × Stack)
  | 0, _ => none
  | _ + 1, [] => none
  | depth + 1, top :: rest =>
    match top with
    | .number q => some (.value (truncate (lua.toDouble q)), top :: rest)
    | .string s => some (.string (cString s), top :: rest)
    | .boolean b => some (.value b.toInt, top :: rest)
    | .nil => some (.none, top :: rest)
    | .table t => do
      let (more, stack) ← luaNext lua (.nil :: top :: rest)
      if more then
        if (stack[1]?).bind (numberOf lua) = some 1 then
          listLoop lua (luaToObject lua depth) t.length [] stack
        else mapLoop lua (luaToObject lua depth) (t.length + 1) [] (.nil :: stack.drop 2)
      else some (.map [], stack)

end LuaConversion
