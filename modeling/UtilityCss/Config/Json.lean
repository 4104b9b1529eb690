import UtilityCss.Cache.Basic
import UtilityCss.Json.Reader

/-!
# Configuration

The sizes and the policy of the caches, how class names are taken in, and the layout of the output.
Sizes are machine words.

A configuration is written in JSON as an object with all its fields in their order. It is read from an
object, in which fields may be missing and unknown keys are passed over, but no field may come
twice; or from a list of the first fields in their order. A missing field has its default.
-/

namespace UtilityCss

structure Config where
  /-- The capacity of the cache of class names taken apart. -/
  parseCacheSize : Nat := 1000
  /-- The capacity of the cache of style trees. -/
  astCacheSize : Nat := 1000
  /-- The capacity of the cache of classified tokens. -/
  utilityCacheSize : Nat := 1000
  eviction : EvictionPolicy := .fifo
  /-- The number of class names compiled in one batch. -/
  batchSize : Nat := 50
  /-- The quiet time before queued class names are compiled, in milliseconds. -/
  debounceMs : Nat := 16
  /-- Whether style sheets are written without blank space. -/
  minify : Bool := false
  deriving DecidableEq, Repr

namespace Config

/-- The configuration with a batch size, which is at least one. -/
def withBatchSize (c : Config) (n : Nat) : Config := { c with batchSize := max n 1 }

end Config

/-! ## Configurations as JSON -/

namespace EvictionPolicy

/-- The word for a policy. -/
def word : EvictionPolicy → String
  | fifo => "fifo"
  | lru => "lru"

def ofWord? (s : String) : Option EvictionPolicy :=
  if s = "fifo" then some fifo else if s = "lru" then some lru else none

/-- A policy is written as its word, or as an object with the word as its one key and no value. -/
def ofJson? : Json → Option EvictionPolicy
  | .text s => s >>= ofWord?
  | .object [(key, .null)] => key >>= ofWord?
  | _ => none

end EvictionPolicy

namespace Config

/-- The fields in their order. -/
def fieldNames : List String :=
  ["parseCacheSize", "astCacheSize", "utilityCacheSize", "eviction", "batchSize", "debounceMs",
    "minify"]

/-- A configuration as a JSON object. -/
def toJson (c : Config) : String :=
  "\x7b\"parseCacheSize\":" ++ toString c.parseCacheSize ++
    ",\"astCacheSize\":" ++ toString c.astCacheSize ++
    ",\"utilityCacheSize\":" ++ toString c.utilityCacheSize ++
    ",\"eviction\":\"" ++ c.eviction.word ++
    "\",\"batchSize\":" ++ toString c.batchSize ++
    ",\"debounceMs\":" ++ toString c.debounceMs ++
    ",\"minify\":" ++ (if c.minify then "true" else "false") ++ "\x7d"

/-- The configuration with the field of a name read from a value; other names change nothing. -/
def setField? (c : Config) (name : String) (v : Json) : Option Config :=
  if name = "parseCacheSize" then v.word?.map fun n => { c with parseCacheSize := n }
  else if name = "astCacheSize" then v.word?.map fun n => { c with astCacheSize := n }
  else if name = "utilityCacheSize" then v.word?.map fun n => { c with utilityCacheSize := n }
  else if name = "eviction" then (EvictionPolicy.ofJson? v).map fun e => { c with eviction := e }
  else if name = "batchSize" then v.word?.map fun n => { c with batchSize := n }
  else if name = "debounceMs" then v.word?.map fun n => { c with debounceMs := n }
  else if name = "minify" then v.flag?.map fun b => { c with minify := b }
  else some c

/-- Set fields one after the other; none of those in `done` may come again. -/
def setFields? (c : Config) (done : List String) : List (Option String × Json) → Option Config
  | [] => some c
  | (none, _) :: _ => none
  | (some name, v) :: rest =>
    if name ∈ done then none
    else do
      let c ← c.setField? name v
      c.setFields? (if name ∈ fieldNames then name :: done else done) rest

/-- A JSON value read as a configuration. -/
def ofValue? : Json → Option Config
  | .object fields => setFields? {} [] fields
  | .list items =>
    if fieldNames.length < items.length then none
    else setFields? {} [] ((fieldNames.map some).zip items)
  | _ => none

/-- A JSON text read as a configuration. -/
def ofJson? (s : String) : Option Config := Json.read? s >>= ofValue?

end Config
end UtilityCss
