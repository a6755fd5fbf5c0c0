import Chratos.Coins.Coins
import Chratos.Lib.WriteBack

/-!
# Chratos — stacked coin caches (`coins.cpp`, `txdb.cpp`)

A `CCoinsViewCache` stands on another one or on a base map. It keeps the entries it has read or
changed, with two flags: DIRTY when an entry may differ from what is below, FRESH when below there is
nothing unspent under that txid. FRESH entries that become empty are dropped on the spot, and when
a cache is flushed they need not be written.

Caches are listed from the top down. Only the top one is worked with, the others have a cache above
them; when that is destroyed the next one is the top. Reading fills the caches below as well.
-/

namespace Chratos

open WriteBack Function CCoins

/-! ## The caches -/

abbrev CCoinsCacheEntry := Entry CCoins

/-- The entries of a cache, by txid. -/
abbrev CCoinsMap := Uint256 → Option CCoinsCacheEntry

structure CCoinsViewCache where
  cacheCoins : CCoinsMap := fun _ => none
  /-- The null hash stands for the best block of what is below. -/
  hashBlock : Uint256 := 0

/-- What the lowest cache stands on: a map that keeps the coins as they are. The database itself keeps
what `CCoins::Serialize` writes of them, which is without `fCoinStake`. -/
structure BaseMap where
  coins : Uint256 → Option CCoins
  hashBlock : Uint256 := 0

namespace CCoinsViewCache

def insert (cache : CCoinsViewCache) (txid : Uint256) (entry : Option CCoinsCacheEntry) :
    CCoinsViewCache :=
  { cache with cacheCoins := update cache.cacheCoins txid entry }

/-- `FetchCoins` and `GetCoins`, through the caches from the top down: what is found is kept in each
cache it comes through. -/
def getCoins (db : BaseMap) (txid : Uint256) :
    List CCoinsViewCache → List CCoinsViewCache × Option CCoins
  | [] => ([], db.coins txid)
  | cache :: below =>
    match cache.cacheCoins txid with
    | some entry => (cache :: below, some entry.value)
    | none =>
      match getCoins db txid below with
      | (below, none) => (cache :: below, none)
      | (below, some tmp) =>
        -- if the parent only has an empty entry, our version is fresh
        (cache.insert txid (some ⟨tmp, false, tmp.isPruned⟩) :: below, some tmp)

/-- The destructor of a `CCoinsModifier`. -/
def release (cache : CCoinsViewCache) (txid : Uint256) (entry : CCoinsCacheEntry) : CCoinsViewCache :=
  cache.insert txid (settle isPruned { entry with value := entry.value.cleanup })

/-- The entry `ModifyCoins` hands out, and the caches below. -/
def entryToModify (db : BaseMap) (txid : Uint256) (cache : CCoinsViewCache)
    (below : List CCoinsViewCache) : List CCoinsViewCache × CCoinsCacheEntry :=
  match cache.cacheCoins txid with
  | some entry => (below, entry)
  | none =>
    match getCoins db txid below with
    | (below, none) => (below, ⟨clear, false, true⟩)
    | (below, some coins) => (below, ⟨coins, false, coins.isPruned⟩)

/-- `ModifyCoins`, with what the holder of the modifier does to the entry. -/
def modifyCoins (db : BaseMap) (txid : Uint256) (f : CCoins → CCoins) (cache : CCoinsViewCache)
    (below : List CCoinsViewCache) : List CCoinsViewCache :=
  let (below, entry) := entryToModify db txid cache below
  cache.release txid { entry with value := f entry.value, dirty := true } :: below

/-- `ModifyNewCoins`. What is below is not looked at. -/
def modifyNewCoins (txid : Uint256) (coinbase : Bool) (f : CCoins → CCoins) (cache : CCoinsViewCache) :
    CCoinsViewCache :=
  let fresh := if coinbase then ((cache.cacheCoins txid).map Entry.fresh).getD false else true
  cache.release txid ⟨f clear, true, fresh⟩

/-- `BatchWrite`, of the entries of the cache above. The loop treats each txid by itself. -/
def batchWrite (cache above : CCoinsViewCache) : CCoinsViewCache where
  cacheCoins := fun txid => absorb isPruned (above.cacheCoins txid) (cache.cacheCoins txid)
  hashBlock := above.hashBlock

/-- `Uncache`. -/
def uncache (txid : Uint256) (cache : CCoinsViewCache) : CCoinsViewCache :=
  match cache.cacheCoins txid with
  | some entry => if !entry.dirty && !entry.fresh then cache.insert txid none else cache
  | none => cache

end CCoinsViewCache

/-- `BatchWrite` into the base map. -/
def BaseMap.batchWrite (db : BaseMap) (above : CCoinsViewCache) : BaseMap where
  coins := fun txid =>
    match above.cacheCoins txid with
    | some entry => if entry.dirty then seen isPruned entry.value else db.coins txid
    | none => db.coins txid
  hashBlock := if above.hashBlock = 0 then db.hashBlock else above.hashBlock

/-- `Flush` of the top cache, which is empty then. -/
def CCoinsViewCache.flush (db : BaseMap) (cache : CCoinsViewCache) :
    List CCoinsViewCache → BaseMap × List CCoinsViewCache
  | [] => (db.batchWrite cache, [{ cache with cacheCoins := fun _ => none }])
  | next :: below => (db, { cache with cacheCoins := fun _ => none } :: next.batchWrite cache :: below)

/-- All caches from `cache` down are flushed, each into the next. -/
def CCoinsViewCache.flushAll (db : BaseMap) (cache : CCoinsViewCache) :
    List CCoinsViewCache → BaseMap
  | [] => db.batchWrite cache
  | next :: below => flushAll db (next.batchWrite cache) below

/-! ## What is seen -/

/-- An entry without unspent outputs counts as none. -/
def CCoins.unspent (coins : CCoins) : Option CCoins := seen isPruned coins

/-- Unspent entries by txid. -/
abbrev PlainCoins := Uint256 → Option CCoins

/-- The maps that are seen through the caches, from the top down to the base. -/
inductive Represents (db : BaseMap) : List CCoinsViewCache → List PlainCoins → Prop
  | db {m : PlainCoins} (hdb : ∀ txid, m txid = (db.coins txid).bind unspent) : Represents db [] [m]
  | cache {cache : CCoinsViewCache} {below : List CCoinsViewCache} {m x : PlainCoins}
    {maps : List PlainCoins}
    (hcache : ∀ txid, Shows isPruned (x txid) (m txid) (cache.cacheCoins txid))
    (hbelow : Represents db below (x :: maps)) : Represents db (cache :: below) (m :: x :: maps)

/-- An edit of a plain map. -/
def PlainCoins.set (m : PlainCoins) (txid : Uint256) (coins : CCoins) : PlainCoins :=
  update m txid coins.cleanup.unspent

theorem Represents.top {db : BaseMap} {caches : List CCoinsViewCache} {maps : List PlainCoins}
    (h : Represents db caches maps) : ∃ m rest, maps = m :: rest := by
  cases h with
  | db => exact ⟨_, _, rfl⟩
  | cache => exact ⟨_, _, rfl⟩

namespace Represents

open CCoinsViewCache

variable {db : BaseMap} {cache : CCoinsViewCache} {caches below : List CCoinsViewCache}
  {m x : PlainCoins} {maps : List PlainCoins} {txid : Uint256}

/-- Reading yields what the top map holds, and what is seen stays the same. -/
theorem getCoins (h : Represents db caches (m :: maps)) (txid : Uint256) :
    Represents db (getCoins db txid caches).1 (m :: maps) ∧
      (getCoins db txid caches).2.bind unspent = m txid := by
  generalize hm : m :: maps = ms at h
  induction h generalizing m maps with
  | db hdb =>
    obtain ⟨rfl, rfl⟩ := List.cons.inj hm
    exact ⟨.db hdb, (hdb txid).symm⟩
  | @cache cache below m' x maps' hcache hbelow ih =>
    obtain ⟨rfl, rfl⟩ := List.cons.inj hm
    have hat := hcache txid
    unfold CCoinsViewCache.getCoins
    cases hentry : cache.cacheCoins txid with
    | some entry =>
      rw [hentry] at hat
      exact ⟨.cache hcache hbelow, hat.1.symm⟩
    | none =>
      rw [hentry] at hat
      obtain ⟨hbelow', hget⟩ := ih rfl
      have hsame : m txid = x txid := hat
      cases hfetch : CCoinsViewCache.getCoins db txid below with
      | mk below' found =>
        rw [hfetch] at hbelow' hget
        cases found with
        | none => exact ⟨.cache hcache hbelow', hget.trans hsame.symm⟩
        | some tmp =>
          refine ⟨.cache (fun t => ?_) hbelow', hget.trans hsame.symm⟩
          show Shows _ _ _ (update cache.cacheCoins txid _ t)
          by_cases ht : t = txid
          · -- a clean copy of what is below
            subst ht
            rw [update_self, hsame]
            exact shows_fetched hget
          · rw [update_of_ne ht]
            exact hcache t

/-- A modified entry is put back. -/
theorem release {coins : CCoins} {fresh : Bool}
    (hcache : ∀ t, Shows isPruned (x t) (m t) (cache.cacheCoins t))
    (hfresh : fresh = true → x txid = none) (hbelow : Represents db below (x :: maps)) :
    Represents db (cache.release txid ⟨coins, true, fresh⟩ :: below)
      (m.set txid coins :: x :: maps) := by
  refine .cache (fun t => ?_) hbelow
  show Shows _ _ (update m txid _ t) (update cache.cacheCoins txid _ t)
  by_cases ht : t = txid
  · subst ht
    rw [update_self, update_self]
    exact shows_settle hfresh
  · rw [update_of_ne ht, update_of_ne ht]
    exact hcache t

section

variable (h : Represents db (cache :: below) (m :: x :: maps))
include h

/-- What `ModifyCoins` hands out. -/
theorem entryToModify (txid : Uint256) :
    Represents db (entryToModify db txid cache below).1 (x :: maps) ∧
      (entryToModify db txid cache below).2.value.unspent = m txid ∧
      ((entryToModify db txid cache below).2.fresh = true → x txid = none) := by
  cases h with
  | cache hcache hbelow =>
    have hat := hcache txid
    unfold CCoinsViewCache.entryToModify
    cases hentry : cache.cacheCoins txid with
    | some entry =>
      rw [hentry] at hat
      exact ⟨hbelow, hat.1.symm, hat.2.1⟩
    | none =>
      rw [hentry] at hat
      have hsame : m txid = x txid := hat
      obtain ⟨hbelow', hget⟩ := hbelow.getCoins txid
      cases hfetch : CCoinsViewCache.getCoins db txid below with
      | mk below' found =>
        rw [hfetch] at hbelow' hget
        cases found with
        | none => exact ⟨hbelow', hget.trans hsame.symm, fun _ => hget.symm⟩
        | some coins =>
          exact ⟨hbelow', hget.trans hsame.symm, fun hpruned => hget ▸ seen_of_void hpruned⟩

/-- `ModifyCoins` edits the map, if it makes no difference to the edit what an empty entry holds
besides outputs. -/
theorem modifyCoins {f : CCoins → CCoins} (hf : m txid = none → ∀ coins, coins.isPruned = true →
      (f coins).cleanup.unspent = (f clear).cleanup.unspent) :
    Represents db (modifyCoins db txid f cache below)
      (m.set txid (f ((m txid).getD clear)) :: x :: maps) := by
  obtain ⟨hbelow, hvalue, hfresh⟩ := h.entryToModify txid
  cases h with
  | cache hcache _ =>
    unfold CCoinsViewCache.modifyCoins
    generalize CCoinsViewCache.entryToModify db txid cache below = r at hbelow hvalue hfresh
    have hset : m.set txid (f r.2.value) = m.set txid (f ((m txid).getD clear)) := by
      unfold PlainCoins.set
      congr 1
      cases hm : m txid with
      | none => exact hf hm _ (seen_eq_none.mp (hvalue.trans hm))
      | some coins => rw [eq_of_seen (hvalue.trans hm), Option.getD_some]
    rw [← hset]
    exact release hcache hfresh hbelow

/-- `ModifyNewCoins` sets an entry of the map. A FRESH one may hide nothing below. -/
theorem modifyNewCoins {coinbase : Bool} {f : CCoins → CCoins} (hbelow : coinbase = false →
    x txid = none) :
    Represents db (modifyNewCoins txid coinbase f cache :: below)
      (m.set txid (f clear) :: x :: maps) := by
  cases h with
  | cache hcache hrest =>
    refine release hcache ?_ hrest
    cases coinbase with
    | false => exact fun _ => hbelow rfl
    | true =>
      -- the flag of the entry that is overwritten
      have hat := hcache txid
      intro hfresh
      cases hentry : cache.cacheCoins txid with
      | none =>
        rw [hentry] at hfresh
        cases hfresh
      | some entry =>
        rw [hentry] at hfresh hat
        exact hat.2.1 hfresh

end

theorem batchWrite {next : CCoinsViewCache} {y : PlainCoins}
    (h : Represents db (cache :: next :: below) (m :: x :: y :: maps)) :
    Represents db (next.batchWrite cache :: below) (m :: y :: maps) := by
  cases h with
  | cache hcache hrest =>
    cases hrest with
    | cache hnext hbelow => exact .cache (fun t => (hnext t).absorb (hcache t)) hbelow

theorem batchWrite_db (h : Represents db [cache] [m, x]) : Represents (db.batchWrite cache) [] [m] := by
  cases h with
  | cache hcache hrest =>
    cases hrest with
    | db hdb =>
      refine .db fun t => ?_
      have hat := hcache t
      unfold BaseMap.batchWrite
      dsimp only
      cases hentry : cache.cacheCoins t with
      | none =>
        rw [hentry] at hat
        exact hat.trans (hdb t)
      | some entry =>
        rw [hentry] at hat
        obtain ⟨hvalue, -, hclean⟩ := hat
        dsimp only
        split_ifs with hdirty
        · -- empty entries are erased
          rw [hvalue]
          unfold unspent seen
          split_ifs with hpruned
          · rfl
          · exact (if_neg hpruned).symm
        · exact (hclean (Bool.not_eq_true _ ▸ hdirty)).trans (hdb t)

/-- An empty cache on top. -/
theorem create (h : Represents db caches (m :: maps)) (hashBlock : Uint256) :
    Represents db (⟨fun _ => none, hashBlock⟩ :: caches) (m :: m :: maps) :=
  .cache (fun _ => rfl) h

section

variable (h : Represents db (cache :: below) (m :: x :: maps))
include h

theorem flush : Represents (cache.flush db below).1 (cache.flush db below).2 (m :: m :: maps) := by
  cases below with
  | nil =>
    cases h with
    | cache hcache hrest =>
      cases hrest with
      | db hdb => exact create (batchWrite_db (.cache hcache (.db hdb))) _
  | cons next below =>
    cases h with
    | cache hcache hrest =>
      cases hrest with
      | cache hnext hbelow => exact create (batchWrite (.cache hcache (.cache hnext hbelow))) _

theorem uncache : Represents db (uncache txid cache :: below) (m :: x :: maps) := by
  cases h with
  | cache hcache hbelow =>
    refine .cache (fun t => ?_) hbelow
    unfold CCoinsViewCache.uncache
    cases hentry : cache.cacheCoins txid with
    | none => exact hcache t
    | some entry =>
      dsimp only
      split_ifs with hclean
      · show Shows _ _ _ (update cache.cacheCoins txid none t)
        by_cases ht : t = txid
        · subst ht
          have hat := hcache t
          rw [hentry] at hat
          rw [update_self]
          exact hat.drop (Bool.not_eq_true' _ ▸ (Bool.and_eq_true_iff.mp hclean).1)
        · rw [update_of_ne ht]
          exact hcache t
      · exact hcache t

theorem destroy : Represents db below (x :: maps) := by
  cases h with
  | cache _ hbelow => exact hbelow

end

/-- When all caches have been flushed, the base map holds what was seen through the top one. -/
theorem flushAll (h : Represents db (cache :: below) (m :: maps)) :
    Represents (cache.flushAll db below) [] [m] := by
  induction below generalizing cache maps with
  | nil =>
    cases h with
    | cache hcache hrest =>
      cases hrest with
      | db hdb => exact batchWrite_db (.cache hcache (.db hdb))
  | cons next below ih =>
    cases h with
    | cache hcache hrest =>
      cases hrest with
      | cache hnext hbelow => exact ih (batchWrite (.cache hcache (.cache hnext hbelow)))

end Represents

end Chratos
