import Chratos.Coins.Cache

/-!
# Chratos — stacked coin caches and a plain map

Whatever is done to a stack of caches should come out as if it had been done to one map: a cache is a
copy of the map, which `Flush` writes back. Two things stand in the way.

`ModifyNewCoins` marks an entry as FRESH although only the view itself is known to hold nothing unspent.
When the coins of that txid have been spent in the same cache, they are still there below, and when the
new coins are spent too the entry is dropped and the old ones come back.

`ModifyCoins` hands out an entry without outputs as the cache has it, with the height and the flags of
the transaction it was once for, or cleared if the cache has dropped it. An edit that keeps them gives
one result before a flush and another one after it.
-/

namespace Chratos

open WriteBack Option

/-! ## Runs -/

/-- What is done to the top cache, or to the stack. -/
inductive CacheCall where
  | getCoins (txid : Uint256)
  | modifyCoins (txid : Uint256) (f : CCoins → CCoins)
  | modifyNewCoins (txid : Uint256) (coinbase : Bool) (f : CCoins → CCoins)
  | flush
  | uncache (txid : Uint256)
  | create
  | destroy

/-- An output is spent. -/
def CacheCall.spend (txid : Uint256) (n : Nat) : CacheCall :=
  .modifyCoins txid fun coins => coins.spend n

/-- Caches on a base map, from the top down. -/
structure CacheStack where
  db : BaseMap
  caches : List CCoinsViewCache := []

namespace CacheStack

/-- `GetCoins` at the top, an empty entry being none. -/
def lookup (s : CacheStack) (txid : Uint256) : Option CCoins :=
  (CCoinsViewCache.getCoins s.db txid s.caches).2.bind CCoins.unspent

/-- The view on which the top cache stands. -/
def below (s : CacheStack) : CacheStack := { s with caches := s.caches.tail }

/-- One call. Only `create` needs no cache. -/
def step (s : CacheStack) (call : CacheCall) : Option CacheStack :=
  match call, s.caches with
  | .create, caches => some { s with caches := {} :: caches }
  | _, [] => none
  | .getCoins txid, _ :: _ => some { s with caches := (CCoinsViewCache.getCoins s.db txid s.caches).1 }
  | .modifyCoins txid f, cache :: below =>
    some { s with caches := CCoinsViewCache.modifyCoins s.db txid f cache below }
  | .modifyNewCoins txid coinbase f, cache :: below =>
    some { s with caches := CCoinsViewCache.modifyNewCoins txid coinbase f cache :: below }
  | .flush, cache :: below => some ⟨(cache.flush s.db below).1, (cache.flush s.db below).2⟩
  | .uncache txid, cache :: below => some { s with caches := cache.uncache txid :: below }
  | .destroy, _ :: below => some { s with caches := below }

/-- Every cache is flushed. -/
def flushAll (s : CacheStack) : BaseMap :=
  match s.caches with
  | [] => s.db
  | cache :: below => cache.flushAll s.db below

end CacheStack

/-- The same done to plain maps, one for each cache and one for the base. -/
def CacheCall.edit : CacheCall → List PlainCoins → List PlainCoins
  | .modifyCoins txid f, m :: maps => m.set txid (f ((m txid).getD CCoins.clear)) :: maps
  | .modifyNewCoins txid _ f, m :: maps => m.set txid (f CCoins.clear) :: maps
  | .flush, m :: _ :: maps => m :: m :: maps
  | .create, m :: maps => m :: m :: maps
  | .destroy, _ :: maps => maps
  | _, maps => maps

/-- When a call does to the caches what it does to the map. -/
def CacheCall.Safe (s : CacheStack) : CacheCall → Prop
  | .modifyCoins txid f => s.lookup txid = none → ∀ coins, coins.isPruned = true →
      (f coins).cleanup.unspent = (f CCoins.clear).cleanup.unspent
  | .modifyNewCoins txid coinbase _ => coinbase = false → s.below.lookup txid = none
  | _ => True

/-- States reached by safe calls, and what the same calls make of the plain maps. -/
inductive CacheStack.Reached (db : BaseMap) : CacheStack → List PlainCoins → Prop
  | start : Reached db ⟨db, []⟩ [fun txid => (db.coins txid).bind CCoins.unspent]
  | step {s s' : CacheStack} {maps : List PlainCoins} (call : CacheCall) (hreached : Reached db s maps)
    (hsafe : call.Safe s) (hstep : s.step call = some s') : Reached db s' (call.edit maps)

/-! ## Caches and maps agree -/

namespace CacheStack

variable {db : BaseMap} {s s' : CacheStack} {maps : List PlainCoins}

theorem lookup_eq {m : PlainCoins} (h : Represents s.db s.caches (m :: maps)) (txid : Uint256) :
    s.lookup txid = m txid :=
  (h.getCoins txid).2

/-- A call that is safe changes the stack as its edit changes the plain maps. -/
theorem step_represents {call : CacheCall} (h : Represents s.db s.caches maps) (hsafe : call.Safe s)
    (hstep : s.step call = some s') : Represents s'.db s'.caches (call.edit maps) := by
  obtain ⟨m, rest, rfl⟩ := h.top
  obtain ⟨db, caches⟩ := s
  cases caches with
  | nil =>
    cases call with
    | create =>
      obtain rfl := some.inj hstep
      exact h.create 0
    | _ => cases hstep
  | cons cache below =>
    -- a cache stands on a map
    cases rest with
    | nil => cases h
    | cons x maps =>
      cases call
      all_goals obtain rfl := some.inj hstep
      case create => exact h.create 0
      case getCoins txid => exact (h.getCoins txid).1
      case modifyCoins txid f =>
        exact h.modifyCoins fun hnone => hsafe ((lookup_eq h txid).trans hnone)
      case modifyNewCoins txid coinbase f =>
        exact h.modifyNewCoins fun hcb => (lookup_eq h.destroy txid).symm.trans (hsafe hcb)
      case flush => exact h.flush
      case uncache txid => exact h.uncache
      case destroy => exact h.destroy

theorem Reached.represents (h : Reached db s maps) : Represents s.db s.caches maps := by
  induction h with
  | start => exact .db fun _ => rfl
  | step call _ hsafe hstep ih => exact step_represents ih hsafe hstep

end CacheStack

/-- After any safe calls the top of the stack shows the map that the same calls lead to, and when
everything has been flushed the base holds it. -/
theorem caches_refine_map {db : BaseMap} {s : CacheStack} {maps : List PlainCoins}
    (h : CacheStack.Reached db s maps) :
    ∃ m rest, maps = m :: rest ∧ (∀ txid, s.lookup txid = m txid) ∧
      ∀ txid, (s.flushAll.coins txid).bind CCoins.unspent = m txid := by
  have hrep := h.represents
  obtain ⟨m, rest, rfl⟩ := hrep.top
  refine ⟨m, rest, rfl, CacheStack.lookup_eq hrep, ?_⟩
  have hend : Represents s.flushAll [] [m] := by
    obtain ⟨db', caches⟩ := s
    cases caches with
    | nil =>
      cases hrep with
      | db hdb => exact .db hdb
    | cons cache below => exact hrep.flushAll
  cases hend with
  | db hdb => exact fun txid => (hdb txid).symm

/-- Coins with one output, from a coinstake at height 3. -/
def oldCoins : CCoins where
  fCoinStake := true
  vout := [⟨5, [0x51]⟩]
  nHeight := 3
  nVersion := 1

/-- A base map with these coins and nothing else. -/
def oldCoinsBase : BaseMap where
  coins := fun txid => if txid = 7 then some oldCoins else none

theorem caches_refine_map_create :
    ∃ s maps, CacheStack.Reached oldCoinsBase s maps ∧ s.lookup 8 = some oldCoins ∧
      ∃ m rest, maps = m :: rest ∧ (∀ txid, s.lookup txid = m txid) ∧
        ∀ txid, (s.flushAll.coins txid).bind CCoins.unspent = m txid := by
  have hcreate : CacheStack.Reached oldCoinsBase ⟨oldCoinsBase, [{}]⟩ _ :=
    .step .create .start trivial rfl
  have hnew : CacheStack.Reached oldCoinsBase
      ⟨oldCoinsBase, [CCoinsViewCache.modifyNewCoins 8 false (fun _ => oldCoins) {}]⟩ _ :=
    .step (.modifyNewCoins 8 false fun _ => oldCoins) hcreate (fun _ => by decide +kernel) rfl
  exact ⟨_, _, hnew, by decide +kernel, caches_refine_map hnew⟩

/-! ## Where they differ -/

def CacheStack.run (s : CacheStack) (calls : List CacheCall) : Option CacheStack :=
  calls.foldlM CacheStack.step s

/-- The coins are spent, created again under the same txid and spent again. -/
def spentTwice : List CacheCall :=
  [.create, .spend 7 0, .modifyNewCoins 7 false fun _ => oldCoins, .spend 7 0]

/-- An output is put into the entry, which is left as it is otherwise. -/
def putOutput (coins : CCoins) : CCoins := { coins with vout := [⟨5, [0x51]⟩] }

/-- After the first spending the view holds nothing unspent under txid 7, so `ModifyNewCoins` may be
called; after the second one the coins of the base map are back. And coins that have been spent and are
put back by hand keep the height of the old ones, unless there was a flush in between. -/
theorem caches_differ_from_map :
    ((⟨oldCoinsBase, []⟩ : CacheStack).run (spentTwice.take 2)).map (·.lookup 7) = some none ∧
      ((⟨oldCoinsBase, []⟩ : CacheStack).run spentTwice).map (·.lookup 7) = some (some oldCoins) ∧
      ((spentTwice.foldl (fun maps call => call.edit maps)
        [fun txid => (oldCoinsBase.coins txid).bind CCoins.unspent]).head?.map fun m =>
          m 7) = some none ∧
      ((⟨oldCoinsBase, []⟩ : CacheStack).run [.create, .spend 7 0, .modifyCoins 7 putOutput]).map
        (·.lookup 7) = some (some oldCoins) ∧
      ((⟨oldCoinsBase, []⟩ : CacheStack).run
        [.create, .spend 7 0, .flush, .modifyCoins 7 putOutput]).map
        (·.lookup 7) = some (some { vout := [⟨5, [0x51]⟩] }) := by
  decide +kernel

end Chratos
