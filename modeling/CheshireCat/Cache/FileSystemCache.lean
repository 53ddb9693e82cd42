import CheshireCat.Base.FileSystem
import CheshireCat.Cache.InMemoryCache
import CheshireCat.Session.StrayCat
import Mathlib.Data.Rat.Encodable
import Mathlib.Logic.Equiv.List

namespace CheshireCat.Cache
open Base

variable {ν : Type}

/-- What the operating system and `pickle` answer, for items that can be pickled. A path with a NUL
character or one that is too long is refused with an error. -/
structure Platform (ν : Type) where
  refuses : String → Option String
  dump : CacheItem String ν → String
  load : String → Except String (CacheItem String ν)
  load_dump : ∀ item, load (dump item) = .ok item

structure FileSystemCache where
  cacheDir : FilePath
  files : FileSystem

/-! ### Paths -/

/-- The root is always there. -/
def nodeAt (fs : FileSystem) (path : FilePath) : Option Node :=
  if path = [] then some .folder else fs.get? path

/-- A path is followed part by part. Each part is looked up in a folder, also `..`. -/
def follow (fs : FileSystem) : FilePath → List String → Except String FilePath
  | dir, [] => .ok dir
  | dir, part :: parts =>
    match nodeAt fs dir with
    | some .folder => follow fs (enter dir part) parts
    | some (.file _) => .error "NotADirectoryError"
    | none => .error "FileNotFoundError"

def getFilePath (key : String) : String := key ++ ".cache"

namespace FileSystemCache

/-- `__init__`: the folder is made where nothing has its path. -/
def create (cacheDir : FilePath) (files : FileSystem) : Outcome FileSystem :=
  if (nodeAt files cacheDir).isSome then .returned files
  else (makeParents cacheDir files).andThen (fun files => makeFolder files cacheDir)

/-- Where the path of a key leads. The folder is dropped when the key is absolute. -/
def place (platform : Platform ν) (cache : FileSystemCache) (key : String) :
    Except String FilePath :=
  match platform.refuses (getFilePath key) with
  | some error => .error error
  | none => follow cache.files (if isAbsolute (getFilePath key) then [] else cache.cacheDir)
      (pathParts (getFilePath key))

def insert (platform : Platform ν) (cache : FileSystemCache) (cacheItem : CacheItem String ν) :
    Answer String ν × FileSystemCache :=
  match cache.place platform cacheItem.key with
  | .error error => (.raised error, cache)
  | .ok path =>
    match writeFile path (platform.dump cacheItem) cache.files with
    | .returned files => (.done, { cache with files := files })
    | .raised error files => (.raised error, { cache with files := files })

/-- `os.path.exists` is false for a path that cannot be followed or is refused. -/
def getItem (platform : Platform ν) (cache : FileSystemCache) (key : String) (now : Rat) :
    Except String (Option (CacheItem String ν)) × FileSystemCache :=
  match cache.place platform key with
  | .error _ => (.ok none, cache)
  | .ok path =>
    match nodeAt cache.files path with
    | none => (.ok none, cache)
    | some .folder => (.error "IsADirectoryError", cache)
    | some (.file content) =>
      match platform.load content with
      | .error error => (.error error, cache)
      | .ok cacheItem =>
        if cacheItem.isExpired now then (.ok none, { cache with files := cache.files.erase path })
        else (.ok (some cacheItem), cache)

def getValue (platform : Platform ν) (cache : FileSystemCache) (key : String) (now : Rat) :
    Except String (Option ν) × FileSystemCache :=
  match cache.getItem platform key now with
  | (.error error, cache) => (.error error, cache)
  | (.ok (some cacheItem), cache) => (.ok (some cacheItem.value), cache)
  | (.ok none, cache) => (.ok none, cache)

def delete (platform : Platform ν) (cache : FileSystemCache) (key : String) :
    Answer String ν × FileSystemCache :=
  match cache.place platform key with
  | .error _ => (.done, cache)
  | .ok path =>
    match nodeAt cache.files path with
    | none => (.done, cache)
    | some .folder => (.raised "IsADirectoryError", cache)
    | some (.file _) => (.done, { cache with files := cache.files.erase path })

def step (platform : Platform ν) (cache : FileSystemCache) :
    Call String ν → Answer String ν × FileSystemCache
  | .insert cacheItem => cache.insert platform cacheItem
  | .getItem key now =>
    match cache.getItem platform key now with
    | (.error error, cache) => (.raised error, cache)
    | (.ok found, cache) => (.item found, cache)
  | .getValue key now =>
    match cache.getValue platform key now with
    | (.error error, cache) => (.raised error, cache)
    | (.ok found, cache) => (.value found, cache)
  | .delete key => cache.delete platform key

/-! ### Keys with a place of their own -/

/-- Every key leads into an existing folder, to a name under which nothing is stored yet and
to which no other key leads. -/
def OwnPlaces (platform : Platform ν) (cache : FileSystemCache) (keys : String → Prop) : Prop :=
  ∀ key, keys key → ∃ path, cache.place platform key = .ok path ∧ nodeAt cache.files path = none ∧
    ∀ other, keys other → cache.place platform other = .ok path → other = key

variable {platform : Platform ν} {cache cache' : FileSystemCache}

/-- Both have the same folders, so that paths lead to the same places. -/
def SameFolders (cache cache' : FileSystemCache) : Prop :=
  cache'.cacheDir = cache.cacheDir ∧
    ∀ path, cache'.files.get? path = some .folder ↔ cache.files.get? path = some .folder

theorem make_folder_there (path : FilePath) (fs : FileSystem) :
    (makeFolder fs path).Ends (fun t => nodeAt t path = some .folder) (fun _ => True) := by
  unfold makeFolder
  by_cases hroot : path = []
  · rw [if_pos hroot]
    exact if_pos hroot
  · rw [if_neg hroot]
    cases hnode : fs.get? path with
    | none => simp [Outcome.Ends, nodeAt, hroot]
    | some node =>
      cases node with
      | folder => simp [Outcome.Ends, nodeAt, hroot, hnode]
      | file content => trivial

theorem follow_ok_iff (fs : FileSystem) (dir : FilePath) (part : String) (parts : List String)
    (path : FilePath) : follow fs dir (part :: parts) = .ok path ↔
      nodeAt fs dir = some .folder ∧ follow fs (enter dir part) parts = .ok path := by
  rw [follow]
  split <;> simp_all

theorem SameFolders.node_at (h : SameFolders cache cache') (path : FilePath) :
    nodeAt cache'.files path = some .folder ↔ nodeAt cache.files path = some .folder := by
  unfold nodeAt
  split
  · exact Iff.rfl
  · exact h.2 path

theorem SameFolders.follow (h : SameFolders cache cache') (dir : FilePath) (parts : List String)
    (path : FilePath) :
    follow cache'.files dir parts = .ok path ↔ follow cache.files dir parts = .ok path := by
  induction parts generalizing dir with
  | nil => exact Iff.rfl
  | cons part parts ih => rw [follow_ok_iff, follow_ok_iff, h.node_at, ih]

theorem SameFolders.place (h : SameFolders cache cache') (key : String) (path : FilePath) :
    cache'.place platform key = .ok path ↔ cache.place platform key = .ok path := by
  unfold FileSystemCache.place
  rw [h.1]
  split
  · exact Iff.rfl
  · exact h.follow _ _ path

theorem SameFolders.refl (cache : FileSystemCache) : SameFolders cache cache :=
  ⟨rfl, fun _ => Iff.rfl⟩

/-- A change at one place, where there is no folder before and after, changes no folder. -/
theorem SameFolders.change (h : SameFolders cache cache') {path : FilePath} {files : FileSystem}
    (hbefore : cache'.files.get? path ≠ some .folder) (hafter : files.get? path ≠ some .folder)
    (hother : ∀ p, p ≠ path → files.get? p = cache'.files.get? p) :
    SameFolders cache { cache' with files := files } := by
  refine ⟨h.1, ?_⟩
  intro p
  rw [← h.2]
  by_cases hp : p = path
  · subst hp
    exact iff_of_false hafter hbefore
  · rw [← hother p hp]

/-! ### The dictionary -/

/-- Under the place of a key lies the item that the dictionary has for it. -/
structure Holds (platform : Platform ν) (start : FileSystemCache) (keys : String → Prop)
    (cache : FileSystemCache) (items : Dict String (CacheItem String ν)) : Prop where
  folders : SameFolders start cache
  stored : ∀ key path, keys key → start.place platform key = .ok path →
    cache.files.get? path = (items.get? key).map (fun item => .file (platform.dump item))

section Simulation

variable {start : FileSystemCache} {keys : String → Prop}
  {items : Dict String (CacheItem String ν)}

/-- The place of a key is the one it had at the start, and it is no folder. -/
theorem Holds.place (h : Holds platform start keys cache items)
    (own : start.OwnPlaces platform keys) {key : String} (hkey : keys key) :
    ∃ path, start.place platform key = .ok path ∧ cache.place platform key = .ok path ∧
      path ≠ [] ∧ cache.files.get? path ≠ some .folder ∧
      nodeAt cache.files path = (items.get? key).map (fun item => .file (platform.dump item)) ∧
      ∀ other, keys other → start.place platform other = .ok path → other = key := by
  obtain ⟨path, hpath, hfree, honly⟩ := own key hkey
  have hroot : path ≠ [] := by
    rintro rfl
    simp [nodeAt] at hfree
  have hstored := h.stored key path hkey hpath
  refine ⟨path, hpath, (h.folders.place key path).mpr hpath, hroot, ?_, ?_, honly⟩
  · rw [hstored]
    cases items.get? key <;> simp
  · rw [nodeAt, if_neg hroot, hstored]

/-- A change at the place of one key that follows the dictionary. -/
theorem Holds.change (h : Holds platform start keys cache items) {key : String} {path : FilePath}
    {files : FileSystem} {items' : Dict String (CacheItem String ν)}
    (hpath : start.place platform key = .ok path) (hfile : cache.files.get? path ≠ some .folder)
    (honly : ∀ other, keys other → start.place platform other = .ok path → other = key)
    (hat : files.get? path = (items'.get? key).map (fun item => .file (platform.dump item)))
    (hfiles : ∀ p, p ≠ path → files.get? p = cache.files.get? p)
    (hitems : ∀ k, k ≠ key → items'.get? k = items.get? k) :
    Holds platform start keys { cache with files := files } items' := by
  have hafter : files.get? path ≠ some .folder := by
    rw [hat]
    cases items'.get? key <;> simp
  refine ⟨h.folders.change hfile hafter hfiles, ?_⟩
  intro key' p hkey hp
  by_cases hsame : key' = key
  · subst hsame
    rw [hpath] at hp
    cases hp
    exact hat
  · have hother : p ≠ path := fun he => hsame (honly key' hkey (he ▸ hp))
    rw [hfiles p hother, hitems key' hsame]
    exact h.stored key' p hkey hp

theorem Holds.set (h : Holds platform start keys cache items) {item : CacheItem String ν}
    {path : FilePath} (hpath : start.place platform item.key = .ok path)
    (hfile : cache.files.get? path ≠ some .folder)
    (honly : ∀ other, keys other → start.place platform other = .ok path → other = item.key) :
    Holds platform start keys
      { cache with files := cache.files.set path (.file (platform.dump item)) }
      (items.set item.key item) := by
  apply h.change hpath hfile honly
  · rw [Dict.get?_set_self, Dict.get?_set_self, Option.map_some]
  · intro p hp
    exact Dict.get?_set_other _ _ hp
  · intro k hk
    exact Dict.get?_set_other _ _ hk

theorem Holds.erase (h : Holds platform start keys cache items) {key : String}
    {path : FilePath} (hpath : start.place platform key = .ok path)
    (hfile : cache.files.get? path ≠ some .folder)
    (honly : ∀ other, keys other → start.place platform other = .ok path → other = key) :
    Holds platform start keys { cache with files := cache.files.erase path } (items.erase key) := by
  apply h.change hpath hfile honly
  · rw [Dict.get?_erase, Dict.get?_erase, if_pos rfl, if_pos rfl, Option.map_none]
  · intro p hp
    rw [Dict.get?_erase, if_neg hp]
  · intro k hk
    rw [Dict.get?_erase, if_neg hk]

theorem Holds.insert (h : Holds platform start keys cache items)
    (own : start.OwnPlaces platform keys) (item : CacheItem String ν) (hkey : keys item.key) :
    (cache.insert platform item).1 = .done ∧
      Holds platform start keys (cache.insert platform item).2 (items.set item.key item) := by
  obtain ⟨path, hstart, hplace, hroot, hfile, _, honly⟩ := h.place own hkey
  have hwrite : writeFile path (platform.dump item) cache.files =
      .returned (cache.files.set path (.file (platform.dump item))) :=
    if_neg (not_or.mpr ⟨hroot, hfile⟩)
  simp only [FileSystemCache.insert, hplace, hwrite]
  exact ⟨trivial, h.set hstart hfile honly⟩

theorem Holds.get_item (h : Holds platform start keys cache items)
    (own : start.OwnPlaces platform keys) {key : String} (hkey : keys key) (now : Rat) :
    (cache.getItem platform key now).1 = .ok (lookup items key now).1 ∧
      Holds platform start keys (cache.getItem platform key now).2 (lookup items key now).2 := by
  obtain ⟨path, hstart, hplace, hroot, hfile, hnode, honly⟩ := h.place own hkey
  cases hget : items.get? key with
  | none =>
    rw [hget] at hnode
    simp only [FileSystemCache.getItem, lookup, hplace, hnode, hget, Option.map_none]
    exact ⟨trivial, h⟩
  | some item =>
    rw [hget] at hnode
    simp only [FileSystemCache.getItem, lookup, hplace, hnode, hget, Option.map_some,
      platform.load_dump]
    by_cases hexpired : item.isExpired now = true
    · rw [if_pos hexpired, if_pos hexpired]
      exact ⟨rfl, h.erase hstart hfile honly⟩
    · rw [if_neg hexpired, if_neg hexpired]
      exact ⟨rfl, h⟩

theorem get_value_eq (cache : FileSystemCache) (key : String) (now : Rat) :
    cache.getValue platform key now =
      ((cache.getItem platform key now).1.map (Option.map CacheItem.value),
        (cache.getItem platform key now).2) := by
  unfold FileSystemCache.getValue
  rcases cache.getItem platform key now with ⟨error | found | item, cache⟩ <;> rfl

theorem Holds.delete (h : Holds platform start keys cache items)
    (own : start.OwnPlaces platform keys) {key : String} (hkey : keys key) :
    (cache.delete platform key).1 = .done ∧
      Holds platform start keys (cache.delete platform key).2 (items.erase key) := by
  obtain ⟨path, hstart, hplace, hroot, hfile, hnode, honly⟩ := h.place own hkey
  cases hget : items.get? key with
  | none =>
    have habsent : key ∉ items.keys := by
      rw [Dict.mem_keys_iff, hget]
      simp
    rw [hget] at hnode
    simp only [FileSystemCache.delete, hplace, hnode, Option.map_none,
      Dict.erase_absent items habsent]
    exact ⟨trivial, h⟩
  | some item =>
    rw [hget] at hnode
    simp only [FileSystemCache.delete, hplace, hnode, Option.map_some]
    exact ⟨trivial, h.erase hstart hfile honly⟩

/-- A call under one of the keys is answered as by the dictionary. -/
theorem Holds.step (h : Holds platform start keys cache items)
    (own : start.OwnPlaces platform keys) {call : Call String ν} (hkey : keys call.key) :
    (cache.step platform call).1 = (forgettingDict items call).1 ∧
      Holds platform start keys (cache.step platform call).2 (forgettingDict items call).2 := by
  cases call with
  | insert item => exact h.insert own item hkey
  | getItem key now =>
    change keys key at hkey
    obtain ⟨hanswer, hholds⟩ := h.get_item own hkey now
    simp only [FileSystemCache.step]
    generalize cache.getItem platform key now = got at hanswer hholds ⊢
    obtain ⟨answer, cache'⟩ := got
    obtain rfl : answer = .ok (lookup items key now).1 := hanswer
    exact ⟨rfl, hholds⟩
  | getValue key now =>
    change keys key at hkey
    obtain ⟨hanswer, hholds⟩ := h.get_item own hkey now
    simp only [FileSystemCache.step, get_value_eq]
    generalize cache.getItem platform key now = got at hanswer hholds ⊢
    obtain ⟨answer, cache'⟩ := got
    obtain rfl : answer = .ok (lookup items key now).1 := hanswer
    exact ⟨rfl, hholds⟩
  | delete key => exact h.delete own hkey

/-- At the start there are no items. -/
theorem OwnPlaces.holds (own : start.OwnPlaces platform keys) :
    Holds platform start keys start .empty := by
  refine ⟨SameFolders.refl start, ?_⟩
  intro key path hkey hpath
  obtain ⟨own', hown, hfree, _⟩ := own key hkey
  rw [hpath] at hown
  cases hown
  have hroot : path ≠ [] := by
    rintro rfl
    simp [nodeAt] at hfree
  rw [nodeAt, if_neg hroot] at hfree
  rw [hfree, Dict.get?_empty, Option.map_none]

theorem own_places_answers (own : start.OwnPlaces platform keys) {calls : List (Call String ν)}
    (hkeys : ∀ call ∈ calls, keys call.key) :
    answers (step platform) start calls = answers forgettingDict Dict.empty calls := by
  refine answers_eq (R := Holds platform start keys) (Q := fun call => keys call.key) ?_
    hkeys (always_true _ _ _) own.holds
  intro cache items call hkey h _
  exact h.step own hkey

/-! ### Without a place of its own -/

/-- An insert that returns has followed the path to a place where there is no folder. -/
theorem insert_done {item : CacheItem String ν}
    (h : (cache.insert platform item).1 = .done) :
    ∃ path, cache.place platform item.key = .ok path ∧ path ≠ [] ∧
      cache.files.get? path ≠ some .folder := by
  unfold FileSystemCache.insert at h
  cases hplace : cache.place platform item.key with
  | error error =>
    rw [hplace] at h
    cases h
  | ok path =>
    refine ⟨path, rfl, ?_⟩
    rw [← not_or]
    intro htaken
    rw [hplace] at h
    simp only [writeFile, if_pos htaken] at h
    cases h

/-- A file that is found is read, or its error is raised. -/
theorem get_item_found {key : String} {path : FilePath} {content : String}
    (hplace : cache.place platform key = .ok path)
    (hnode : nodeAt cache.files path = some (.file content)) :
    ∃ now, (cache.step platform (.getItem key now)).1 ≠ .item none := by
  simp only [FileSystemCache.step, FileSystemCache.getItem, hplace, hnode]
  cases hload : platform.load content with
  | error error => exact ⟨0, by simp⟩
  | ok item =>
    obtain ⟨now, hfresh⟩ := not_expired_early item
    exact ⟨now, by simp [hfresh]⟩

variable [Inhabited ν]

/-- An item that never expires. -/
def lasting (key : String) : CacheItem String ν := ⟨key, default, none, 0⟩

/-- Where two keys lead to one place, one reads what was inserted under the other. -/
theorem get_item_collides {key other : String} {path : FilePath}
    (hkey : cache.place platform key = .ok path) (hother : cache.place platform other = .ok path)
    (hroot : path ≠ []) (hfile : cache.files.get? path ≠ some .folder) (now : Rat) :
    answers (step platform) cache [.insert (lasting key), .getItem other now] =
      [.done, .item (some (lasting key))] := by
  let after : FileSystemCache :=
    { cache with files := cache.files.set path (.file (platform.dump (lasting key))) }
  have hwrite : writeFile path (platform.dump (lasting key)) cache.files = .returned after.files :=
    if_neg (not_or.mpr ⟨hroot, hfile⟩)
  have hinsert : cache.step platform (.insert (lasting key)) = (.done, after) := by
    simp only [FileSystemCache.step, FileSystemCache.insert]
    rw [show (lasting key : CacheItem String ν).key = key from rfl, hkey]
    dsimp only
    rw [hwrite]
  have hfolders : SameFolders cache after := by
    apply (SameFolders.refl cache).change hfile
    · rw [Dict.get?_set_self]
      simp
    · intro p hp
      exact Dict.get?_set_other _ _ hp
  have hplace : after.place platform other = .ok path :=
    (hfolders.place other path).mpr hother
  have hnode : nodeAt after.files path = some (.file (platform.dump (lasting key))) := by
    rw [nodeAt, if_neg hroot]
    exact Dict.get?_set_self _ _ _
  have hget : after.step platform (.getItem other now) = (.item (some (lasting key)), after) := by
    simp only [FileSystemCache.step, FileSystemCache.getItem, hplace, hnode, platform.load_dump]
    rfl
  rw [answers, hinsert, answers, hget, answers]

theorem answers_own_places (h : ∀ calls : List (Call String ν), (∀ call ∈ calls, keys call.key) →
    answers (step platform) start calls = answers forgettingDict Dict.empty calls) :
    start.OwnPlaces platform keys := by
  intro key hkey
  have hinsert : (start.step platform (.insert (lasting key))).1 = .done :=
    List.head_eq_of_cons_eq (h [.insert (lasting key)] (by simpa [Call.key, lasting] using hkey))
  obtain ⟨path, hplace, hroot, hfile⟩ := insert_done hinsert
  change start.place platform key = .ok path at hplace
  refine ⟨path, hplace, ?_, ?_⟩
  · cases hnode : nodeAt start.files path with
    | none => rfl
    | some node =>
      cases node with
      | folder =>
        rw [nodeAt, if_neg hroot] at hnode
        exact absurd hnode hfile
      | file content =>
        obtain ⟨now, hfound⟩ := get_item_found hplace hnode
        have hget := h [.getItem key now] (by simpa [Call.key] using hkey)
        exact absurd (List.head_eq_of_cons_eq hget) hfound
  · intro other hother hsame
    have hanswers := h [.insert (lasting key), .getItem other 0] (by
      simpa [Call.key, lasting] using ⟨hkey, hother⟩)
    rw [get_item_collides hplace hsame hroot hfile] at hanswers
    by_contra hne
    simp [answers, forgettingDict, lookup, lasting, Dict.get?_set, hne] at hanswers

/-- With the keys in use, the file cache answers as the dictionary that forgets expired
items, and so as the cache in memory while fewer than 100 keys are present, exactly when
every key has a place of its own. -/
theorem refines_dict_iff :
    (∀ calls : List (Call String ν), (∀ call ∈ calls, keys call.key) →
      answers (step platform) start calls = answers forgettingDict Dict.empty calls ∧
      (Always forgettingDict (fun d => d.entries.length < 100) Dict.empty calls →
        answers (step platform) start calls =
          answers InMemoryCache.step InMemoryCache.create calls)) ↔
    start.OwnPlaces platform keys := by
  constructor
  · intro h
    exact answers_own_places (fun calls hkeys => (h calls hkeys).1)
  · intro own calls hkeys
    have hdict := own_places_answers own hkeys
    refine ⟨hdict, ?_⟩
    intro few
    exact hdict.trans (InMemoryCache.answers_forgetting few).symm

end Simulation

/-! ### User ids -/

/-- A key without a slash is a name in the cache folder. -/
theorem place_plain {start : FileSystemCache} {key : String}
    (hdir : nodeAt start.files start.cacheDir = some .folder) (hslash : '/' ∉ key.toList)
    (haccepted : platform.refuses (getFilePath key) = none) :
    start.place platform key = .ok (start.cacheDir ++ [getFilePath key]) := by
  have hlength : (getFilePath key).length = key.length + 6 := String.length_append _ _
  have hname : ∀ name : String, name.length < 6 → getFilePath key ≠ name := by
    intro name hshort he
    rw [he] at hlength
    omega
  have hslash' : '/' ∉ (getFilePath key).toList := by
    rw [getFilePath, String.toList_append, List.mem_append, not_or]
    exact ⟨hslash, by decide⟩
  have henter : enter start.cacheDir (getFilePath key) = start.cacheDir ++ [getFilePath key] := by
    rw [enter, if_neg (not_or.mpr ⟨hname "" (by decide), hname "." (by decide)⟩),
      if_neg (hname ".." (by decide))]
  simp only [place, haccepted, is_absolute_plain hslash', path_parts_plain hslash',
    Bool.false_eq_true, if_false, follow, hdir, henter]

def PlainKey (platform : Platform ν) (key : String) : Prop :=
  '/' ∉ key.toList ∧ platform.refuses (getFilePath key) = none

/-- In an empty cache folder the keys without a slash have places of their own. -/
theorem plain_own_places (platform : Platform ν) {start : FileSystemCache}
    (hdir : nodeAt start.files start.cacheDir = some .folder)
    (hempty : ∀ name, start.files.get? (start.cacheDir ++ [name]) = none) :
    start.OwnPlaces platform (PlainKey platform) := by
  rintro key ⟨hslash, haccepted⟩
  refine ⟨_, place_plain hdir hslash haccepted, ?_, ?_⟩
  · rw [nodeAt, if_neg (by simp)]
    exact hempty _
  · rintro other ⟨hother, hother'⟩ hsame
    rw [place_plain hdir hother hother', Except.ok.injEq, List.append_cancel_left_eq,
      List.singleton_inj, getFilePath, getFilePath] at hsame
    exact (String.append_left_inj ".cache").mp hsame

/-- So they have in the folder that a new cache makes. -/
theorem create_own_places (platform : Platform ν) {cacheDir : FilePath} {files : FileSystem}
    (hnew : nodeAt files cacheDir = none)
    (hempty : ∀ name, files.get? (cacheDir ++ [name]) = none) :
    (create cacheDir files).Ends
      (fun made => OwnPlaces platform ⟨cacheDir, made⟩ (PlainKey platform)) (fun _ => True) := by
  have hempty' (path : FilePath) (fs : FileSystem) (hshort : path.length ≤ cacheDir.length)
      (h : ∀ name, fs.get? (cacheDir ++ [name]) = none) : (makeFolder fs path).Ends
        (fun t => ∀ name, t.get? (cacheDir ++ [name]) = none) (fun _ => True) := by
    have hgrown : (makeFolder fs path).Ends (Grown (fun k => k = path) fs)
        (Grown (fun k => k = path) fs) := make_folder_grown (fun _ _ => rfl)
    refine hgrown.mono ?_ (fun _ _ => trivial)
    intro t ht name
    rw [ht.same _ (fun he => ?_), h name]
    have hlength := congrArg List.length he
    rw [List.length_append, List.length_singleton] at hlength
    omega
  unfold create
  rw [hnew]
  refine Outcome.Ends.andThen (R := fun t => ∀ name, t.get? (cacheDir ++ [name]) = none) ?_ ?_
  · refine Outcome.Ends.loop ?_ hempty
    intro path hpath fs h
    have hstarts := ((List.mem_inits _ _).mp hpath).trans (List.dropLast_prefix cacheDir)
    exact hempty' path fs hstarts.length_le h
  · intro fs h
    refine ((hempty' cacheDir fs (Nat.le_refl _) h).both (make_folder_there cacheDir fs)).mono ?_
      (fun _ _ => trivial)
    intro t ht
    exact plain_own_places platform ht.2 ht.1

/-- Items are dumped as their numbers. -/
def numbering (ν : Type) [Encodable ν] : Platform ν where
  refuses _ := none
  dump item := String.ofList (List.replicate (Encodable.encode
    (item.key.toList.map Char.toNat, item.value, item.ttl, item.createdAt)) '1')
  load content :=
    match (Encodable.decode content.length : Option (List Nat × ν × Option Rat × Rat)) with
    | some (key, value, ttl, createdAt) =>
      .ok ⟨String.ofList (key.map Char.ofNat), value, ttl, createdAt⟩
    | none => .error "UnpicklingError"
  load_dump item := by
    have hchars : Char.ofNat ∘ Char.toNat = id := funext Char.ofNat_toNat
    simp [hchars]

/-- In the folder of a new cache, `alice` reads the working memory of the user `./alice`. -/
theorem user_reads_other :
    answers (step (numbering Nat)) ⟨["tmp"], (create ["tmp"] Dict.empty).state⟩
      [.insert ⟨Session.cacheKey "./alice", 0, none, 0⟩, .getItem (Session.cacheKey "alice") 0] =
        [.done, .item (some ⟨Session.cacheKey "./alice", 0, none, 0⟩)] ∧
    answers forgettingDict Dict.empty
      [.insert ⟨Session.cacheKey "./alice", 0, none, 0⟩, .getItem (Session.cacheKey "alice") 0] =
        [.done, .item (none : Option (CacheItem String Nat))] := by
  refine ⟨?_, by decide +kernel⟩
  let cache : FileSystemCache := ⟨["tmp"], (create ["tmp"] Dict.empty).state⟩
  have hwriter : cache.place (numbering Nat) (Session.cacheKey "./alice") =
      .ok ["tmp", "alice_working_memory.cache"] := by decide +kernel
  have hreader : cache.place (numbering Nat) (Session.cacheKey "alice") =
      .ok ["tmp", "alice_working_memory.cache"] := by decide +kernel
  exact get_item_collides hwriter hreader (by decide) (by decide +kernel) 0

end FileSystemCache

end CheshireCat.Cache
