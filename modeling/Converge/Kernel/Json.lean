/-
# Kernel.Json -- jsonb documents and the operators the schema applies to them

`resources.spec`, `resources.status` and the queue's copies of them are jsonb.
A jsonb value is a tree: numbers are exact (`numeric`), an object has one value
per key and no order.  Objects are stored here with their keys in ascending
order, so equality of trees is the `=` of jsonb; `insertField` keeps the order.

`get?` is `#>`.  `setPath` is the recursion inside `jsonb_set(_, _, _, true)`;
its errors are `none`, and abort the statement that met them.

The composer compares documents on the Go side, after decoding: numbers are
`float64` there, and `specsMatchIgnoringFlowed` clears the flowed fields first.
-/
import Mathlib.Algebra.Order.Ring.Int
import Mathlib.Algebra.Order.Ring.Nat
import Mathlib.Data.Rat.Defs
import Mathlib.Data.List.Basic

namespace Converge.Kernel

set_option autoImplicit false

inductive Json where
  | null
  | bool (value : Bool)
  | num (value : Rat)
  | str (value : String)
  | arr (items : List Json)
  | obj (fields : List (String × Json))
  deriving Inhabited

namespace Json

/-! ## Equality -/

mutual

def decEq : (a b : Json) → Decidable (a = b)
  | .null, .null => isTrue rfl
  | .bool a, .bool b =>
    if h : a = b then isTrue (h ▸ rfl) else isFalse fun e => h (Json.bool.inj e)
  | .num a, .num b =>
    if h : a = b then isTrue (h ▸ rfl) else isFalse fun e => h (Json.num.inj e)
  | .str a, .str b =>
    if h : a = b then isTrue (h ▸ rfl) else isFalse fun e => h (Json.str.inj e)
  | .arr a, .arr b =>
    match decEqItems a b with
    | isTrue h => isTrue (h ▸ rfl)
    | isFalse h => isFalse fun e => h (Json.arr.inj e)
  | .obj a, .obj b =>
    match decEqFields a b with
    | isTrue h => isTrue (h ▸ rfl)
    | isFalse h => isFalse fun e => h (Json.obj.inj e)
  | .null, .bool _ | .null, .num _ | .null, .str _ | .null, .arr _ | .null, .obj _
  | .bool _, .null | .bool _, .num _ | .bool _, .str _ | .bool _, .arr _ | .bool _, .obj _
  | .num _, .null | .num _, .bool _ | .num _, .str _ | .num _, .arr _ | .num _, .obj _
  | .str _, .null | .str _, .bool _ | .str _, .num _ | .str _, .arr _ | .str _, .obj _
  | .arr _, .null | .arr _, .bool _ | .arr _, .num _ | .arr _, .str _ | .arr _, .obj _
  | .obj _, .null | .obj _, .bool _ | .obj _, .num _ | .obj _, .str _ | .obj _, .arr _ =>
    isFalse fun e => nomatch e

def decEqItems : (a b : List Json) → Decidable (a = b)
  | [], [] => isTrue rfl
  | [], _ :: _ | _ :: _, [] => isFalse fun e => nomatch e
  | x :: xs, y :: ys =>
    match decEq x y, decEqItems xs ys with
    | isTrue h, isTrue t => isTrue (by rw [h, t])
    | isFalse h, _ => isFalse fun e => h (List.cons.inj e).1
    | _, isFalse t => isFalse fun e => t (List.cons.inj e).2

def decEqFields : (a b : List (String × Json)) → Decidable (a = b)
  | [], [] => isTrue rfl
  | [], _ :: _ | _ :: _, [] => isFalse fun e => nomatch e
  | (k, x) :: xs, (l, y) :: ys =>
    match decEq x y, decEqFields xs ys with
    | isTrue h, isTrue t =>
      if e : k = l then isTrue (by rw [h, t, e])
      else isFalse fun f => e (Prod.mk.inj (List.cons.inj f).1).1
    | isFalse h, _ => isFalse fun e => h (Prod.mk.inj (List.cons.inj e).1).2
    | _, isFalse t => isFalse fun e => t (List.cons.inj e).2

end

instance : DecidableEq Json := decEq

/-- The document with no fields, the default of every jsonb column that has one. -/
def empty : Json := .obj []

/-! ## Reading -/

def field? (key : String) (fields : List (String × Json)) : Option Json :=
  (fields.find? fun f => f.1 = key).map Prod.snd

/-- The digits of a decimal number, most significant first. -/
def digits? : List Char → Option Nat
  | [] => none
  | cs => if cs.all Char.isDigit then
      some (cs.foldl (fun n c => 10 * n + (c.toNat - '0'.toNat)) 0) else none

/-- `strtoint`: leading blanks, a sign, digits to the end, in the range of `int`. -/
def arrayIndex? (text : String) : Option Int :=
  let signed := match text.toList.dropWhile Char.isWhitespace with
    | '-' :: cs => (digits? cs).map fun n => -(n : Int)
    | '+' :: cs => (digits? cs).map fun n => (n : Int)
    | cs => (digits? cs).map fun n => (n : Int)
  signed.filter fun i => -2147483648 ≤ i ∧ i ≤ 2147483647

/-- The position an index names in an array of `n` items: negative counts from the end. -/
def position? (index : Int) (n : Nat) : Option Nat :=
  if index < 0 then (if -index ≤ n then some (n - (-index).toNat) else none) else some index.toNat

/-- `doc #> path`; `none` is SQL `NULL`. -/
def get? : Json → List String → Option Json
  | doc, [] => some doc
  | .obj fields, key :: rest => (field? key fields).bind (get? · rest)
  | .arr items, index :: rest =>
    ((arrayIndex? index).bind fun i => (position? i items.length).bind (items[·]?)).bind (get? · rest)
  | _, _ :: _ => none

/-! ## Writing -/

/-- Set `key`, keeping the keys in ascending order. -/
def insertField (key : String) (value : Json) : List (String × Json) → List (String × Json)
  | [] => [(key, value)]
  | f :: fs =>
    if key = f.1 then (key, value) :: fs
    else if key < f.1 then (key, value) :: f :: fs
    else f :: insertField key value fs

/-- The recursion of `jsonb_set` with `create_if_missing`, below the root. -/
def setPath (value : Json) : List String → Json → Option Json
  | [], _ => some value
  | key :: rest, .obj fields =>
    match field? key fields with
    | some old => (setPath value rest old).map fun new => .obj (insertField key new fields)
    | none => some (.obj (if rest = [] then insertField key value fields else fields))
  | key :: rest, .arr items =>
    match arrayIndex? key with
    | none => none
    | some i =>
      match position? i items.length with
      -- before the first item: created in front, never descended into
      | none => some (.arr (if rest = [] then value :: items else items))
      | some n =>
        match items[n]? with
        | some old => (setPath value rest old).map fun new => .arr (items.set n new)
        | none => some (.arr (if rest = [] then items ++ [value] else items))
  | _ :: _, scalar => some scalar

/-- `jsonb_set(doc, path, value, true)`; `none` is the error raised on a scalar
document or a non-integer array index. -/
def set? (doc : Json) (path : List String) (value : Json) : Option Json :=
  match doc with
  | .obj _ | .arr _ => if path = [] then some doc else setPath value path doc
  | _ => none

/-! ## Containment -/

/-- `labels @> match` for the flat documents label selectors are: every pair of
the right is a pair of the left. -/
def containsFields : Json → Json → Bool
  | .obj left, .obj right => right.all fun f => field? f.1 left = some f.2
  | left, right => left = right

end Json

/-! ## Documents as the Go side decodes them -/

/-- Half-to-even rounding of `num / den`. -/
def roundHalfEven (num den : Nat) : Nat :=
  let floor := num / den
  let rest := num % den
  if 2 * rest < den then floor
  else if den < 2 * rest then floor + 1
  else if floor % 2 = 0 then floor else floor + 1

/-- The `float64` nearest to `q`; `none` when out of range. -/
def float64? (q : Rat) : Option Rat :=
  let n := q.num.natAbs
  let guess : Int := (n.log2 : Int) - q.den.log2
  -- the exponent of the leading bit
  let lead := if (if 0 ≤ guess then n < q.den * 2 ^ guess.toNat else n * 2 ^ (-guess).toNat < q.den)
    then guess - 1 else guess
  let ulp := max (lead - 52) (-1074)
  let size : Rat :=
    if 0 ≤ ulp then ((roundHalfEven n (q.den * 2 ^ ulp.toNat) * 2 ^ ulp.toNat : Nat) : Rat)
    else mkRat (roundHalfEven (n * 2 ^ (-ulp).toNat) q.den) (2 ^ (-ulp).toNat)
  if size.num ≥ 2 ^ 1024 then none else some (if q < 0 then -size else size)

namespace Json

mutual

/-- `json.Unmarshal` into `any`: every number becomes a `float64`. -/
def decoded? : Json → Option Json
  | .num q => (float64? q).map .num
  | .arr items => (decodedItems? items).map .arr
  | .obj fields => (decodedFields? fields).map .obj
  | doc => some doc

def decodedItems? : List Json → Option (List Json)
  | [] => some []
  | x :: xs => (decoded? x).bind fun y => (decodedItems? xs).map (y :: ·)

def decodedFields? : List (String × Json) → Option (List (String × Json))
  | [] => some []
  | (k, x) :: xs => (decoded? x).bind fun y => (decodedFields? xs).map ((k, y) :: ·)

end

/-- `deleteAtPath`: through objects only. -/
def deleteAtPath : List String → Json → Json
  | [key], .obj fields => .obj (fields.filter fun f => f.1 ≠ key)
  | key :: rest, .obj fields =>
    match field? key fields with
    | some inner => .obj (insertField key (deleteAtPath rest inner) fields)
    | none => .obj fields
  | _, doc => doc

end Json

/-! ## Pointers and patches -/

/-- Split at every `/`: the pieces, the last one last. -/
def splitSlash : List Char → List (List Char)
  | [] => [[]]
  | '/' :: cs => [] :: splitSlash cs
  | c :: cs =>
    match splitSlash cs with
    | [] => [[c]]
    | piece :: pieces => (c :: piece) :: pieces

/-- `pointer_to_path`: the segments of `/a/b`, without `~` unescaping. -/
def pointerToPath (p : String) : List String :=
  match p.toList with
  | [] | ['/'] => []
  | '/' :: rest => (splitSlash rest).map String.ofList
  | _ => [p]

/-- `pointerSegments`, the Go reading of a pointer: a leading slash is dropped, the
rest split, so a bare `a/b` has two segments. -/
def pointerSegments (p : String) : List String :=
  match p.toList with
  | [] | ['/'] => []
  | '/' :: rest => (splitSlash rest).map String.ofList
  | cs => (splitSlash cs).map String.ofList

def specsMatchIgnoringFlowed (existing proposed : Json) (paths : List (List String)) : Bool :=
  match existing.decoded?, proposed.decoded? with
  | some e, some p =>
    paths.foldl (fun doc path => doc.deleteAtPath path) e =
      paths.foldl (fun doc path => doc.deleteAtPath path) p
  | _, _ => false

/-- One entry of the `patches` array of `jsonb_set_many`. -/
structure Patch where
  path : List String
  value : Json
  deriving DecidableEq

/-- `jsonb_set_many`: the patches in order, each on the result of the last. -/
def jsonbSetMany (doc : Json) (patches : List Patch) : Option Json :=
  patches.foldlM (fun out p => out.set? p.path p.value) doc

example : pointerToPath "/status/zone" = ["status", "zone"] := by decide +kernel

end Converge.Kernel
