/-
  OpenJfx.Network.CookieStore.Basic

  The cookie store.  A bucket is a `LinkedHashMap`, so the list of its cookies in insertion
  order.  `System.currentTimeMillis()` is any function from the number of the reading to a time;
  `log` is what the source logs of its cookies.
-/

import OpenJfx.Lib.KeyedList
import OpenJfx.Lib.PriorityQueue
import OpenJfx.Network.Cookie

namespace OpenJfx.Network

/-- The messages of `log`. -/
inductive Message where
  | cookieAdded
  | cookieUpdated
  | cookieExpired
  | expiredRemovedByGet
  | expiredRemovedByFind
  | expiredRemovedByPut
  | expiredRemoved
  | excessRemoved
  deriving DecidableEq, Repr

abbrev Bucket := List Cookie

/-- What is used of other classes: texts that are equal but for their case, and the order in which
    the map of the buckets is visited at a reading of the clock. -/
structure Library where
  equalsIgnoreCase : Text → Text → Bool
  entries : Nat → List (Text × Bucket) → List (Text × Bucket)
  entries_perm : ∀ n m, (entries n m).Perm m

def maxBucketSize : Nat := 50
def totalCountLowerThreshold : Int := 3000
def totalCountUpperThreshold : Int := 4000

/-- The buckets by domain, with the readings of the clock. -/
structure CookieStore where
  buckets : List (Text × Bucket) := []
  totalCount : Int := 0
  /-- How often the clock has been read. -/
  readings : Nat := 0
  log : List (Message × Cookie) := []

/-! ## Buckets -/

namespace Bucket

def get (bucket : Bucket) (c : Cookie) : Option Cookie := bucket.find? (·.key = c.key)

def remove (bucket : Bucket) (c : Cookie) : Bucket := bucket.eraseP (·.key = c.key)

/-- `bucket.put(cookie, cookie)`: a cookie that is there keeps its place. -/
def put : Bucket → Cookie → Bucket
  | [], c => [c]
  | c' :: bucket, c => if c'.key = c.key then c :: bucket else c' :: put bucket c

end Bucket

namespace CookieStore

variable (clock : Nat → Int) (lib : Library)

def bucket (s : CookieStore) (domain : Text) : Option Bucket := valueAt domain s.buckets

def setBucket (s : CookieStore) (domain : Text) (b : Bucket) : CookieStore :=
  { s with buckets := modifyOr domain [] (fun _ => b) s.buckets }

def cookies (s : CookieStore) : List Cookie := s.buckets.flatMap Prod.snd

/-- `hasExpired`, with a new reading of the clock. -/
def hasExpired (s : CookieStore) (c : Cookie) : Bool := c.hasExpired (clock s.readings)

def read (s : CookieStore) : CookieStore := { s with readings := s.readings + 1 }

def note (s : CookieStore) (message : Message) (c : Cookie) : CookieStore :=
  { s with log := s.log ++ [(message, c)] }

/-- A cookie leaves the store. -/
def uncount (s : CookieStore) (message : Message) (c : Cookie) : CookieStore :=
  { s.note message c with totalCount := s.totalCount - 1 }

/-! ## One cookie -/

/-- `get`, which reads the clock to see whether it has expired. -/
def getCookie (s : CookieStore) (c : Cookie) : Option Cookie × CookieStore :=
  match s.bucket c.domain with
  | none => (none, s)
  | some bucket =>
    match bucket.get c with
    | none => (none, s)
    | some stored =>
      if s.hasExpired clock stored then
        (none, (s.read.setBucket c.domain (bucket.remove stored)).uncount
          .expiredRemovedByGet stored)
      else (some stored, s.read)

/-- Expired cookies are removed, the others visited. -/
def sweep {α : Type} (message : Message) (visit : α → Cookie → Except Failure α) :
    Bucket → CookieStore → α → Bucket × CookieStore × Except Failure α
  | [], s, a => ([], s, .ok a)
  | c :: rest, s, a =>
    if s.hasExpired clock c then sweep message visit rest (s.read.uncount message c) a
    else
      match visit a c with
      | .error failure => (c :: rest, s.read, .error failure)
      | .ok a₁ =>
        let (kept, s₁, r) := sweep message visit rest s.read a₁
        (c :: kept, s₁, r)

/-! ## Queries -/

/-- The conditions on a cookie in `find`, in their order. -/
def admits (hostname : Text) (path : Option Text) (secureProtocol httpApi : Bool) (c : Cookie) :
    Except Failure Bool :=
  if c.hostOnly && !lib.equalsIgnoreCase hostname c.domain then .ok false
  else if !c.hostOnly && !domainMatches hostname c.domain then .ok false
  else
    match pathMatches path c.path with
    | .error failure => .error failure
    | .ok false => .ok false
    | .ok true =>
      if c.secureOnly && !secureProtocol then .ok false
      else if c.httpOnly && !httpApi then .ok false
      else .ok true

/-- A cookie that is found is added to the list. -/
def collect (hostname : Text) (path : Option Text) (secureProtocol httpApi : Bool)
    (list : List Cookie) (c : Cookie) : Except Failure (List Cookie) :=
  match admits lib hostname path secureProtocol httpApi c with
  | .error failure => .error failure
  | .ok true => .ok (list ++ [c])
  | .ok false => .ok list

/-- The loop over one bucket, which drops expired cookies. -/
def find (s : CookieStore) (domain : Text) (bucket : Bucket) (hostname : Text)
    (path : Option Text) (secureProtocol httpApi : Bool) (list : List Cookie) :
    CookieStore × Except Failure (List Cookie) :=
  let (kept, s₁, r) := sweep clock .expiredRemovedByFind
    (collect lib hostname path secureProtocol httpApi) bucket s list
  (s₁.setBucket domain kept, r)

/-- `find` where a domain has a bucket. -/
def findIn (s : CookieStore) (domain : Text) (hostname : Text) (path : Option Text)
    (secureProtocol httpApi : Bool) (list : List Cookie) :
    CookieStore × Except Failure (List Cookie) :=
  match s.bucket domain with
  | none => (s, .ok list)
  | some bucket => s.find clock lib domain bucket hostname path secureProtocol httpApi list

/-- The text behind the first point. -/
def parentDomain (domain : Text) : Option Text :=
  (domain.dropWhile (· != '.'.toNat)).tail?

/-- The loop over the domains of a host, each shorter than the one before. -/
def findAll (hostname : Text) (path : Option Text) (secureProtocol httpApi : Bool) :
    Nat → Text → CookieStore → List Cookie → CookieStore × Except Failure (List Cookie)
  | 0, _, s, list => (s, .ok list)
  | fuel + 1, domain, s, list =>
    if domain = [] then (s, .ok list)
    else
      match s.findIn clock lib domain hostname path secureProtocol httpApi list with
      | (s₁, .error failure) => (s₁, .error failure)
      | (s₁, .ok list₁) =>
        match parentDomain domain with
        | none => (s₁, .ok list₁)
        | some parent => findAll hostname path secureProtocol httpApi fuel parent s₁ list₁

/-- `GetComparator`. A cookie that is found has a path. -/
def compareGet (c₁ c₂ : Cookie) : Int :=
  let d : Int := (c₂.path.getD []).length - (c₁.path.getD []).length
  if d ≠ 0 then d else c₁.creationTime.compareTo c₂.creationTime

/-- `setLastAccessTime` for the cookies of a list. -/
def touch (found : List Cookie) (time : Int) (c : Cookie) : Cookie :=
  if c.key ∈ found.map Cookie.key then { c with lastAccessTime := time } else c

/-- `get(String, String, boolean, boolean)`. -/
def get (s : CookieStore) (hostname : Text) (path : Option Text) (secureProtocol httpApi : Bool) :
    CookieStore × Except Failure (List Cookie) :=
  match s.findAll clock lib hostname path secureProtocol httpApi (hostname.length + 1) hostname []
  with
  | (s₁, .error failure) => (s₁, .error failure)
  | (s₁, .ok list) =>
    let result := list.mergeSort (fun c₁ c₂ => decide (compareGet c₁ c₂ ≤ 0))
    let time := clock s₁.readings
    ({ s₁.read with buckets := s₁.buckets.map fun e => (e.1, e.2.map (touch result time)) },
      .ok (result.map (touch result time)))

/-! ## Purges -/

/-- The cookie with the earliest access so far. -/
def earlier (earliest : Option Cookie) (c : Cookie) : Except Failure (Option Cookie) :=
  match earliest with
  | none => .ok (some c)
  | some e => if c.lastAccessTime < e.lastAccessTime then .ok (some c) else .ok (some e)

/-- `purge(Map)`, for the bucket of a domain. -/
def purgeBucket (s : CookieStore) (domain : Text) (bucket : Bucket) : CookieStore :=
  let (kept, s₁, earliest) := sweep clock .expiredRemoved earlier bucket s none
  match earliest with
  | .ok (some e) =>
    if kept.length > maxBucketSize then
      (s₁.setBucket domain (kept.remove e)).uncount .excessRemoved e
    else s₁.setBucket domain kept
  | _ => s₁.setBucket domain kept

/-- By `int` differences of the times. -/
def compareRemoval (c₁ c₂ : Cookie) : Int :=
  ExtendedTime.toInt (c₁.lastAccessTime - c₂.lastAccessTime)

def enqueue (queue : List Cookie) (c : Cookie) : Except Failure (List Cookie) :=
  .ok (PriorityQueue.add compareRemoval queue c)

/-- The first loop of `purge()`, over all the buckets. -/
def sweepAll : List (Text × Bucket) → CookieStore → List Cookie →
    List (Text × Bucket) × CookieStore × List Cookie
  | [], s, queue => ([], s, queue)
  | (domain, bucket) :: rest, s, queue =>
    let (kept, s₁, r) := sweep clock .expiredRemoved enqueue bucket s queue
    let (rest₁, s₂, queue₁) := sweepAll rest s₁ (r.toOption.getD queue)
    ((domain, kept) :: rest₁, s₂, queue₁)

/-- It takes a cookie a round; an empty queue throws. -/
def purgeLoop : Nat → List Cookie → CookieStore → Option CookieStore
  | 0, _, s => if s.totalCount > totalCountLowerThreshold then none else some s
  | fuel + 1, queue, s =>
    if s.totalCount > totalCountLowerThreshold then
      match PriorityQueue.remove compareRemoval queue with
      | none => none
      | some (c, queue₁) =>
        match s.bucket c.domain with
        | none => purgeLoop fuel queue₁ s
        | some bucket =>
          purgeLoop fuel queue₁ ((s.setBucket c.domain (bucket.remove c)).uncount .excessRemoved c)
    else some s

/-- The buckets in the order in which the map is visited. -/
def visited (s : CookieStore) : CookieStore := { s with buckets := lib.entries s.readings s.buckets }

/-- The least recently accessed go, down to the lower threshold. -/
def purge (s : CookieStore) : Option CookieStore :=
  let (buckets, s₁, queue) := sweepAll clock (s.visited lib).buckets s []
  purgeLoop queue.length queue { s₁ with buckets := buckets }

/-! ## Storing -/

/-- The purges after a cookie has been added to the bucket of its domain. -/
def afterAdding (s : CookieStore) (domain : Text) (bucket : Bucket) : Option CookieStore :=
  let s₁ := if bucket.length > maxBucketSize then s.purgeBucket clock domain bucket else s
  if s₁.totalCount > totalCountUpperThreshold then s₁.purge clock lib else some s₁

/-- `put`. The result is none when the queue of `purge()` runs empty. -/
def put (s : CookieStore) (c : Cookie) : Option CookieStore :=
  let bucket := (s.bucket c.domain).getD []
  if s.hasExpired clock c then
    let s₁ := (s.read.setBucket c.domain (bucket.remove c)).note .cookieExpired c
    if (bucket.get c).isSome then some (s₁.uncount .expiredRemovedByPut c) else some s₁
  else
    let s₁ := s.read.setBucket c.domain (bucket.put c)
    if (bucket.get c).isSome then some (s₁.note .cookieUpdated c)
    else
      let s₂ := { s₁.note .cookieAdded c with totalCount := s.totalCount + 1 }
      s₂.afterAdding clock lib c.domain (bucket.put c)

end CookieStore

end OpenJfx.Network
