import CheshireCat.Cache.FileSystemCache
import CheshireCat.Session.Privacy

/-! The working memories in the files of the cache. -/

namespace CheshireCat.Session
open Base Cache

variable {M : Type}

/-- A cat inserts items that never expire. An exception of the file system is taken for a miss. -/
def fileCache (platform : Platform M) (now : Rat) : MemoryCache FileSystemCache M where
  getValue cache key :=
    match (cache.getValue platform key now).1 with
    | .ok found => found
    | .error _ => none
  insert cache key m := (cache.insert platform ⟨key, m, some (-1), now⟩).2

/-- The keys of the users. -/
def userKeys (users : String → Prop) (key : String) : Prop := ∃ userId, users userId ∧ key = cacheKey userId

/-- The files hold what a dictionary has, and nothing in it expires. -/
def Filed (platform : Platform M) (start : FileSystemCache) (users : String → Prop)
    (cache : FileSystemCache) : Prop :=
  ∃ items, FileSystemCache.Holds platform start (userKeys users) cache items ∧
    ∀ key item, items.get? key = some item → item.ttl = some (-1)

variable {platform : Platform M} {start cache : FileSystemCache} {users : String → Prop}

theorem lookup_lasting {items : Dict String (CacheItem String M)}
    (h : ∀ key item, items.get? key = some item → item.ttl = some (-1)) (key : String) (now : Rat) :
    (lookup items key now).1 = items.get? key := by
  unfold lookup
  cases hget : items.get? key with
  | none => rfl
  | some item =>
    have hlasting : item.isExpired now = false := by
      rw [CacheItem.isExpired, h key item hget]
      exact if_pos rfl
    simp [hlasting]

/-- A user is read what the dictionary has under his key. -/
theorem file_value {keys : String → Prop} {items : Dict String (CacheItem String M)}
    (h : FileSystemCache.Holds platform start keys cache items) (own : start.OwnPlaces platform keys)
    (hlasting : ∀ key item, items.get? key = some item → item.ttl = some (-1)) {key : String}
    (hkey : keys key) (now : Rat) :
    (fileCache platform now).getValue cache key = (items.get? key).map CacheItem.value := by
  obtain ⟨hanswer, -⟩ := h.get_item own hkey now
  rw [lookup_lasting hlasting] at hanswer
  simp only [fileCache, FileSystemCache.get_value_eq, hanswer]
  rfl

/-- The files keep the users apart whose keys lead to places of their own. -/
theorem files_keep_apart (own : start.OwnPlaces platform (userKeys users)) (now : Rat) :
    (fileCache platform now).KeepsApart users (Filed platform start users) := by
  have hset {cache : FileSystemCache} {items : Dict String (CacheItem String M)}
      (h : FileSystemCache.Holds platform start (userKeys users) cache items)
      (hlasting : ∀ key item, items.get? key = some item → item.ttl = some (-1))
      {userId : String} (huser : users userId) (m : M) :
      FileSystemCache.Holds platform start (userKeys users)
          ((fileCache platform now).insert cache (cacheKey userId) m)
          (items.set (cacheKey userId) ⟨cacheKey userId, m, some (-1), now⟩) ∧
        ∀ key item, (items.set (cacheKey userId) ⟨cacheKey userId, m, some (-1), now⟩).get? key =
          some item → item.ttl = some (-1) := by
    refine ⟨(h.insert own ⟨cacheKey userId, m, some (-1), now⟩ ⟨userId, huser, rfl⟩).2, ?_⟩
    intro key item hget
    rw [Dict.get?_set] at hget
    split at hget
    · cases hget
      rfl
    · exact hlasting key item hget
  constructor
  · intro cache userId hfiled huser m
    obtain ⟨items, hholds, hlasting⟩ := hfiled
    exact ⟨_, hset hholds hlasting huser m⟩
  · intro cache userId hfiled huser m
    obtain ⟨items, hholds, hlasting⟩ := hfiled
    obtain ⟨hholds', hlasting'⟩ := hset hholds hlasting huser m
    rw [file_value hholds' own hlasting' ⟨userId, huser, rfl⟩, Dict.get?_set_self, Option.map_some]
  · intro cache userId other hfiled huser hother hne m
    obtain ⟨items, hholds, hlasting⟩ := hfiled
    obtain ⟨hholds', hlasting'⟩ := hset hholds hlasting hother m
    rw [file_value hholds' own hlasting' ⟨userId, huser, rfl⟩,
      file_value hholds own hlasting ⟨userId, huser, rfl⟩,
      Dict.get?_set_other _ _ (fun heq => hne (cache_key_injective heq).symm)]

/-- In an empty cache folder the users without a slash in their names are kept apart. -/
theorem plain_users_apart (hdir : nodeAt start.files start.cacheDir = some .folder)
    (hempty : ∀ name, start.files.get? (start.cacheDir ++ [name]) = none)
    (hplain : ∀ userId, users userId → '/' ∉ userId.toList ∧
      platform.refuses (getFilePath (cacheKey userId)) = none) (now : Rat) :
    (fileCache platform now).KeepsApart users (Filed platform start users) ∧
      Filed platform start users start := by
  have hkeys : ∀ key, userKeys users key → FileSystemCache.PlainKey platform key := by
    rintro key ⟨userId, huser, rfl⟩
    obtain ⟨hslash, haccepted⟩ := hplain userId huser
    refine ⟨?_, haccepted⟩
    rw [cacheKey, String.toList_append, List.mem_append, not_or]
    exact ⟨hslash, by decide⟩
  have own : start.OwnPlaces platform (userKeys users) := by
    intro key hkey
    obtain ⟨path, hpath, hfree, honly⟩ :=
      FileSystemCache.plain_own_places platform hdir hempty key (hkeys key hkey)
    exact ⟨path, hpath, hfree, fun other hother => honly other (hkeys other hother)⟩
  exact ⟨files_keep_apart own now, .empty, own.holds, fun key item h => by cases h⟩

end CheshireCat.Session
