import CheshireCat.Base.Answers
import CheshireCat.Base.Dict
import Mathlib.Algebra.Order.Ring.Rat

namespace CheshireCat.Cache
open Base

structure CacheItem (κ ν : Type) where
  key : κ
  value : ν
  ttl : Option Rat
  createdAt : Rat
deriving DecidableEq

inductive Call (κ ν : Type) where
  | insert (cacheItem : CacheItem κ ν)
  | getItem (key : κ) (now : Rat)
  | getValue (key : κ) (now : Rat)
  | delete (key : κ)

def Call.key {κ ν : Type} : Call κ ν → κ
  | .insert cacheItem => cacheItem.key
  | .getItem key _ => key
  | .getValue key _ => key
  | .delete key => key

inductive Answer (κ ν : Type) where
  | done
  | item (found : Option (CacheItem κ ν))
  | value (found : Option ν)
  | raised (error : String)
deriving DecidableEq

variable {κ ν : Type}

def CacheItem.isExpired (item : CacheItem κ ν) (now : Rat) : Bool :=
  match item.ttl with
  | none => false
  | some ttl => if ttl = -1 then false else item.createdAt + ttl < now

/-- An item is fresh for as long as it is not read too late. -/
theorem not_expired_early (item : CacheItem κ ν) : ∃ now, item.isExpired now = false := by
  cases h : item.ttl with
  | none => exact ⟨0, by rw [CacheItem.isExpired, h]⟩
  | some ttl =>
    refine ⟨item.createdAt + ttl, ?_⟩
    simp [CacheItem.isExpired, h]

/-! ### The dictionary that forgets -/

variable [DecidableEq κ]

/-- A lookup forgets the item it finds expired. -/
def lookup (items : Dict κ (CacheItem κ ν)) (key : κ) (now : Rat) :
    Option (CacheItem κ ν) × Dict κ (CacheItem κ ν) :=
  match items.get? key with
  | none => (none, items)
  | some item => if item.isExpired now then (none, items.erase key) else (some item, items)

/-- What a cache is for: a dictionary from keys to items that forgets expired ones. -/
def forgettingDict (items : Dict κ (CacheItem κ ν)) :
    Call κ ν → Answer κ ν × Dict κ (CacheItem κ ν)
  | .insert item => (.done, items.set item.key item)
  | .getItem key now => ((.item (lookup items key now).1), (lookup items key now).2)
  | .getValue key now =>
    ((.value ((lookup items key now).1.map CacheItem.value)), (lookup items key now).2)
  | .delete key => (.done, items.erase key)

end CheshireCat.Cache
