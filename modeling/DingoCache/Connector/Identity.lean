import DingoCache.Library.FlatFile

/-!
# Object Keys of the Connectors

`pool_key` and `sg_key` of `integration/common/src/dfkv_common/identity.py`: the
bytes under which the connectors store and look up one cache object, and one
scatter group of it.
-/

namespace DingoCache.Connector

open Library

abbrev Bytes := List UInt8

/-- What the modelled Python code raises. -/
inductive PyError where
  | valueError (text : String)
  | runtimeError (text : String)
  | assertionError
  | indexError
deriving DecidableEq

/-- `_bytes` of a text. -/
def utf8 (text : String) : Bytes := text.toUTF8.data.toList

def poolMagic : Bytes := utf8 "DFKVPOOL" ++ [2]

def sgMagic : Bytes := utf8 "DFKVSG" ++ [2]

def requiredBytes (value : Bytes) (name : String) : Except PyError Bytes :=
  if value = [] then .error (.valueError (name ++ " must not be empty"))
  else if 1048576 < value.length then .error (.valueError (name ++ " exceeds 1 MiB"))
  else .ok value

/-- `_field`; `_required_bytes` has bounded the length. -/
def field (value : Bytes) : Bytes := putLE 4 value.length ++ value

/-- `_uint(value, 32, name, nonzero=nonzero)`. -/
def uint32 (value : Int) (name : String) (nonzero : Bool) : Except PyError Unit :=
  if (if nonzero then 1 else 0) ≤ value ∧ value < 4294967296 then .ok ()
  else .error (.valueError (name ++ " must be a " ++ (if nonzero then "positive " else
    "") ++ "uint32"))

/-- The sizes and ranks in a key. -/
structure Axes where
  dpSize : Int := 1
  dpRank : Int := -1
  tpSize : Int := 1
  tpRank : Int := -1
  pcpSize : Int := 1
  pcpRank : Int := 0
  dcpSize : Int := 1
  dcpRank : Int := 0
  ppSize : Int := 1
  ppRank : Int := 0
deriving DecidableEq

/-- One axis of a key, packed as a 32-bit size and a signed 32-bit rank. -/
def encodeAxis (name : String) (size rank : Int) : Except PyError Bytes :=
  if size ≤ 0 ∨ 4294967295 < size ∨ rank < -1 ∨ 2147483647 < rank ∨ size ≤ rank then
    .error (.valueError (name ++
      " coordinate must satisfy uint32 size > 0 and -1 <= int32 rank < size"))
  else .ok (putLE 4 size.toNat ++ putLE 4 (rank % 4294967296).toNat)

def encodeAxes (axes : Axes) : Except PyError Bytes := do
  let dp ← encodeAxis "dp" axes.dpSize axes.dpRank
  let tp ← encodeAxis "tp" axes.tpSize axes.tpRank
  let pcp ← encodeAxis "pcp" axes.pcpSize axes.pcpRank
  let dcp ← encodeAxis "dcp" axes.dcpSize axes.dcpRank
  let pp ← encodeAxis "pp" axes.ppSize axes.ppRank
  return dp ++ tp ++ pcp ++ dcp ++ pp

/-- `pool_key`, its texts taken as their bytes. -/
def poolKeyOf (pageHash pool : Bytes) (axes : Axes) (groupId : Int) (component : Bytes) :
    Except PyError Bytes := do
  let poolBytes ← requiredBytes pool "pool"
  let pageHashBytes ← requiredBytes pageHash "page_hash"
  let componentBytes ← requiredBytes component "component"
  if 256 < componentBytes.length then
    throw (.valueError "component exceeds 256 bytes")
  let encodedAxes ← encodeAxes axes
  uint32 groupId "group_id" false
  return poolMagic ++ field poolBytes ++ field pageHashBytes ++ encodedAxes ++
    putLE 4 groupId.toNat ++ field componentBytes

def poolKey (pageHash : Bytes) (pool : String) (axes : Axes) (groupId : Int) (component : String) :
    Except PyError Bytes :=
  poolKeyOf pageHash (utf8 pool) axes groupId (utf8 component)

def sgKey (key : Bytes) (width group : Nat) : Except PyError Bytes := do
  if key = [] then
    throw (.valueError "key must not be empty")
  uint32 width "scatter width" true
  uint32 group "scatter group" false
  return key ++ sgMagic ++ putLE 4 width ++ putLE 4 group

end DingoCache.Connector
