/-
  Traccia Runtime formalization — the cache stores (`cache/stores.py`).

  * `InMemoryCacheStore`: its methods hold the lock and await nothing, so each call is one
    step; `order` is the order in which a set of keys is gone through;
  * `RedisServer`: the commands that `RedisCacheStore` sends.  A key whose time to live has
    passed is absent;
  * `RedisCacheStore`: the calls are made one at a time, and the clock does not move while a
    call is under way.

  The calls made so far are a list, the latest first.
-/
import TracciaRuntime.Types

namespace TracciaRuntime

open Py

variable {V : Type}

/-! ## Calls -/

inductive CacheOp (V : Type) where
  | get (key : String)
  | set (key : String) (value : V) (ttlSeconds : Int) (tags : List String)
  | delete (key : String)
  | invalidateTags (tags : List String)

/-- A call, with the clock. -/
structure CacheAccess (V : Type) where
  op : CacheOp V
  now : Time

inductive CacheReply (V : Type) where
  | got (value : Option V)
  | done
  | invalidated (count : Nat)

/-! ## The store in memory -/

structure CacheItem (V : Type) where
  expiresAt : Time
  value : V
  tags : List String

/-- `items` is an `OrderedDict`, and `tags` a dictionary of sets. -/
structure InMemoryCacheStore (V : Type) where
  maxEntries : Nat := 10000
  items : Dict String (CacheItem V) := []
  tags : Dict String (List String) := []

namespace InMemoryCacheStore

/-- `self._tags[tag].add(key)`. -/
def addTag (key : String) (tags : Dict String (List String)) (tag : String) :
    Dict String (List String) :=
  let members := (tags.get tag).getD []
  tags.set tag (if key ∈ members then members else members ++ [key])

/-- The body of the loop of `_remove_tags`. -/
def removeTag (key : String) (tags : Dict String (List String)) (tag : String) :
    Dict String (List String) :=
  match tags.get tag with
  | none => tags
  | some members =>
    let members' := members.filter fun k => k ≠ key
    if members'.isEmpty then tags.erase tag else tags.set tag members'

/-- `_remove_tags`. -/
def removeTags (tags : Dict String (List String)) (key : String) (itemTags : List String) :
    Dict String (List String) :=
  itemTags.foldl (removeTag key) tags

/-- `_items.pop(key, None)`, with the tags of what it finds removed. -/
def remove (s : InMemoryCacheStore V) (key : String) : InMemoryCacheStore V :=
  match s.items.get key with
  | none => s
  | some item => { s with items := s.items.erase key, tags := removeTags s.tags key item.tags }

/-- `OrderedDict.move_to_end`. -/
def moveToEnd (items : Dict String (CacheItem V)) (key : String) (item : CacheItem V) :
    Dict String (CacheItem V) :=
  items.erase key ++ [(key, item)]

def get (s : InMemoryCacheStore V) (now : Time) (key : String) :
    Option V × InMemoryCacheStore V :=
  match s.items.get key with
  | none => (none, s)
  | some item =>
    if item.expiresAt ≤ now then (none, s.remove key)
    else (some item.value, { s with items := moveToEnd s.items key item })

/-- The eviction loop of `set`. -/
def evict (maxEntries : Nat) : Dict String (CacheItem V) → Dict String (List String) →
    Dict String (CacheItem V) × Dict String (List String)
  | [], tags => ([], tags)
  | (key, item) :: items, tags =>
    if items.length + 1 > maxEntries then
      evict maxEntries items (removeTags tags key item.tags)
    else ((key, item) :: items, tags)

def set (s : InMemoryCacheStore V) (now : Time) (key : String) (value : V) (ttlSeconds : Int)
    (tags : List String) : InMemoryCacheStore V :=
  let s' := s.remove key
  let items := s'.items.set key ⟨now + ttlSeconds, value, tags⟩
  let kept := evict s.maxEntries items (tags.foldl (addTag key) s'.tags)
  { s with items := kept.1, tags := kept.2 }

/-- The keys of the tag sets. -/
def keysOf (s : InMemoryCacheStore V) (tags : List String) : List String :=
  (tags.flatMap fun tag => (s.tags.get tag).getD []).dedup

def invalidateTags (order : List String → List String) (s : InMemoryCacheStore V)
    (tags : List String) : Nat × InMemoryCacheStore V :=
  ((s.keysOf tags).length, (order (s.keysOf tags)).foldl remove s)

def step (order : List String → List String) (c : CacheAccess V) (s : InMemoryCacheStore V) :
    CacheReply V × InMemoryCacheStore V :=
  match c.op with
  | .get key => let (value, s') := s.get c.now key; (.got value, s')
  | .set key value ttlSeconds tags => (.done, s.set c.now key value ttlSeconds tags)
  | .delete key => (.done, s.remove key)
  | .invalidateTags tags =>
    let (count, s') := s.invalidateTags order tags
    (.invalidated count, s')

/-- The store after the calls. -/
def after (order : List String → List String) (maxEntries : Nat) :
    List (CacheAccess V) → InMemoryCacheStore V
  | [] => { maxEntries }
  | c :: past => (step order c (after order maxEntries past)).2

def reply (order : List String → List String) (maxEntries : Nat) (past : List (CacheAccess V))
    (c : CacheAccess V) : CacheReply V :=
  (step order c (after order maxEntries past)).1

end InMemoryCacheStore

/-! ## Redis -/

inductive RedisValue (V : Type) where
  | string (value : V)
  | set (members : List String)

structure RedisEntry (V : Type) where
  value : RedisValue V
  expiresAt : Option Time := none

abbrev RedisServer (V : Type) := Dict String (RedisEntry V)

namespace RedisServer

def lookup (db : RedisServer V) (now : Time) (key : String) : Option (RedisEntry V) :=
  (db.get key).filter fun e => e.expiresAt.all fun t => now < t

def wrongType : Exn := .other "ResponseError"

/-- `GET`. -/
def get (db : RedisServer V) (now : Time) (key : String) : Except Exn (Option V) :=
  match db.lookup now key with
  | none => .ok none
  | some ⟨.string v, _⟩ => .ok (some v)
  | some ⟨.set _, _⟩ => .error wrongType

/-- `SET key value EX seconds`. -/
def setEx (db : RedisServer V) (now : Time) (key : String) (value : V) (seconds : Int) :
    Except Exn Unit × RedisServer V :=
  if seconds ≤ 0 then (.error (.other "ResponseError"), db)
  else (.ok (), Dict.set db key ⟨.string value, some (now + seconds)⟩)

/-- `SADD key member`. -/
def sadd (db : RedisServer V) (now : Time) (key member : String) :
    Except Exn Unit × RedisServer V :=
  match db.lookup now key with
  | none => (.ok (), Dict.set db key ⟨.set [member], none⟩)
  | some ⟨.set members, t⟩ =>
    (.ok (), Dict.set db key
      ⟨.set (if member ∈ members then members else members ++ [member]), t⟩)
  | some ⟨.string _, _⟩ => (.error wrongType, db)

/-- `EXPIRE key seconds`. -/
def expire (db : RedisServer V) (now : Time) (key : String) (seconds : Int) : RedisServer V :=
  match db.lookup now key with
  | none => db
  | some e =>
    if seconds ≤ 0 then Dict.erase db key
    else Dict.set db key { e with expiresAt := some (now + seconds) }

/-- `SMEMBERS key`. -/
def smembers (db : RedisServer V) (now : Time) (key : String) : Except Exn (List String) :=
  match db.lookup now key with
  | none => .ok []
  | some ⟨.set members, _⟩ => .ok members
  | some ⟨.string _, _⟩ => .error wrongType

/-- `DEL key …`. -/
def del (db : RedisServer V) (keys : List String) : RedisServer V := keys.foldl Dict.erase db

end RedisServer

namespace RedisCacheStore

/-- `_value_key`; `pre` is the key prefix. -/
def valueKey (pre key : String) : String := pre ++ ":value:" ++ key

/-- `_tag_key`. -/
def tagKey (pre tag : String) : String := pre ++ ":tag:" ++ tag

/-- The commands of the pipeline for one tag. -/
def addTag (pre : String) (now : Time) (key : String) (ttlSeconds : Int)
    (x : Except Exn Unit × RedisServer V) (tag : String) : Except Exn Unit × RedisServer V :=
  let added := x.2.sadd now (tagKey pre tag) (valueKey pre key)
  (x.1 *> added.1, added.2.expire now (tagKey pre tag) ttlSeconds)

/-- A command that fails does not stop the transaction; the first error is raised after it. -/
def set (pre : String) (db : RedisServer V) (now : Time) (key : String) (value : V)
    (ttlSeconds : Int) (tags : List String) : Except Exn Unit × RedisServer V :=
  tags.foldl (addTag pre now key ttlSeconds) (db.setEx now (valueKey pre key) value ttlSeconds)

/-- The value keys of the tag sets. -/
def keysOf (pre : String) (db : RedisServer V) (now : Time) (tags : List String) :
    Except Exn (List String) := do
  let members ← tags.mapM fun tag => db.smembers now (tagKey pre tag)
  pure members.flatten.dedup

def invalidateTags (pre : String) (db : RedisServer V) (now : Time) (tags : List String) :
    Except Exn Nat × RedisServer V :=
  match keysOf pre db now tags with
  | .error e => (.error e, db)
  | .ok keys => (.ok keys.length, (db.del keys).del (tags.map (tagKey pre)))

def step (pre : String) (c : CacheAccess V) (db : RedisServer V) :
    Except Exn (CacheReply V) × RedisServer V :=
  match c.op with
  | .get key => ((db.get c.now (valueKey pre key)).map .got, db)
  | .set key value ttlSeconds tags =>
    let (r, db') := set pre db c.now key value ttlSeconds tags
    (r.map fun _ => .done, db')
  | .delete key => (.ok .done, db.del [valueKey pre key])
  | .invalidateTags tags =>
    let (r, db') := invalidateTags pre db c.now tags
    (r.map .invalidated, db')

/-- The server after the calls. -/
def after (pre : String) : List (CacheAccess V) → RedisServer V
  | [] => []
  | c :: past => (step pre c (after pre past)).2

end RedisCacheStore

end TracciaRuntime
