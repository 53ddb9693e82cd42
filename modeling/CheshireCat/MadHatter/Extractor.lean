import CheshireCat.Base.FileSystem
import CheshireCat.MadHatter.Operations

namespace CheshireCat.MadHatter
open Base

/-- The types of archive that are admitted. -/
inductive Extension where
  | tar
  | zip
deriving DecidableEq

/-! ### File names -/

/-- `os.path.basename`. -/
def basename (path : List Char) : List Char := (path.reverse.takeWhile (fun c => c ≠ '/')).reverse

/-- `os.path.splitext`. The dots that a file name starts with are no extension. -/
def splitext (path : List Char) : List Char × List Char :=
  let fromEnd := path.reverse
  match fromEnd.dropWhile (fun c => c ≠ '.' ∧ c ≠ '/') with
  | '.' :: stem =>
    if (stem.takeWhile (fun c => c ≠ '/')).any (fun c => c ≠ '.') then
      (stem.reverse, '.' :: (fromEnd.takeWhile (fun c => c ≠ '.' ∧ c ≠ '/')).reverse)
    else (path, [])
  | _ => (path, [])

def lower (s : List Char) : String := String.ofList (s.map Char.toLower)

/-- `mimetypes.suffix_map`. -/
def suffixMap (extension : String) : Option String :=
  if extension ∈ [".tgz", ".taz", ".tz"] then some ".tar.gz"
  else if extension = ".tbz2" then some ".tar.bz2"
  else if extension = ".txz" then some ".tar.xz"
  else if extension = ".svgz" then some ".svg.gz"
  else none

/-- `mimetypes.encodings_map`. -/
def encodings : List String := [".gz", ".Z", ".bz2", ".xz", ".br"]

/-- `mimetypes.guess_type`, which is read for two types only. No suffix is mapped to one
that is mapped again. -/
def guessType (path : String) : Option Extension :=
  let parts := splitext path.toList
  let parts := match suffixMap (lower parts.2) with
    | some suffix => splitext (parts.1 ++ suffix.toList)
    | none => parts
  let extension := if String.ofList parts.2 ∈ encodings then (splitext parts.1).2 else parts.2
  if lower extension = ".zip" then some .zip
  else if lower extension = ".tar" then some .tar
  else none

/-! ### The extractor -/

structure PluginExtractor where
  path : String
  extension : Extension
  id : String
deriving DecidableEq

def invalidExtension : String :=
  "Invalid package extension. Valid extensions are: ['application/zip', 'application/x-tar']"

def createPluginId (slugify : String → String) (path : String) : String :=
  slugify (String.ofList (splitext (basename path.toList)).1)

/-- `PluginExtractor.__init__`. -/
def PluginExtractor.create (slugify : String → String) (path : String) :
    Except String PluginExtractor :=
  match guessType path with
  | none => .error invalidExtension
  | some extension => .ok ⟨path, extension, createPluginId slugify path⟩

/-- The slug of a name has lower case letters, digits and underscores. -/
def SlugChars (slugify : String → String) : Prop :=
  ∀ name, ∀ c ∈ (slugify name).toList, c.isLower ∨ c.isDigit ∨ c = '_'

structure ArchiveMember where
  name : String
  node : Node

/-- What an archive holds, and what reading it raises after these members. -/
structure Contents where
  members : List ArchiveMember
  error : Option String := none

/-- A zip is unpacked without its members that are absolute or have `..` in their names. -/
def skips (extension : Extension) (m : ArchiveMember) : Bool :=
  extension = .zip && (isAbsolute m.name || ['.', '.'] <:+: m.name.toList)

def unpackMember (extension : Extension) (tmp : FilePath) (fs : FileSystem) (m : ArchiveMember) :
    Outcome FileSystem :=
  if skips extension m then .returned fs
  else
    let path := joinPath tmp m.name
    (makeParents path fs).andThen (fun fs =>
      match m.node with
      | .folder => makeFolder fs path
      | .file content => writeFile path content fs)

/-- `shutil.unpack_archive`. -/
def unpackArchive (extension : Extension) (contents : Contents) (tmp : FilePath)
    (fs : FileSystem) : Outcome FileSystem :=
  (Outcome.loop (unpackMember extension tmp) contents.members fs).andThen (fun fs =>
    match contents.error with
    | none => .returned fs
    | some error => .raised error fs)

/-- A single folder is the plugin, otherwise the archive is flat. -/
def folderToCopy (tmp : FilePath) (fs : FileSystem) : FilePath :=
  match listdir tmp fs with
  | [name] => if fs.get? (tmp ++ [name]) = some .folder then tmp ++ [name] else tmp
  | _ => tmp

/-- A folder of the same name is deleted, but for its settings. -/
def replaceExtracted (folder extracted : FilePath) (fs : FileSystem) : Outcome FileSystem :=
  if pathExists extracted fs then
    (match fs.get? (joinPath extracted "settings.json") with
      | some (.file settings) => writeFile (joinPath folder "settings.json") settings fs
      | _ => .returned fs).andThen (rmtree extracted)
  else .returned fs

def cleanup (tmp : FilePath) (fs : FileSystem) : Outcome FileSystem :=
  if pathExists tmp fs then rmtree tmp fs else .returned fs

def placePlugin (tmp extracted : FilePath) (fs : FileSystem) : Outcome FileSystem :=
  let folder := folderToCopy tmp fs
  (replaceExtracted folder extracted fs).andThen (fun fs =>
    (move folder extracted fs).andThen (cleanup tmp))

def tmpFolder (uuid : String) : FilePath := ["tmp", uuid]

/-- What `extract` returns. -/
def PluginExtractor.extractedPath (x : PluginExtractor) (dir : FilePath) : FilePath :=
  joinPath dir x.id

/-- `PluginExtractor.extract`. -/
def PluginExtractor.extract (x : PluginExtractor) (uuid : String) (contents : Contents)
    (dir : FilePath) (fs : FileSystem) : Outcome FileSystem :=
  (mkdir (tmpFolder uuid) fs).andThen (fun fs =>
    (unpackArchive x.extension contents (tmpFolder uuid) fs).andThen
      (placePlugin (tmpFolder uuid) (x.extractedPath dir)))

/-- `utils.get_plugins_path`, in the working directory of the Cat. -/
def pluginsFolder : FilePath := ["app", "cat", "plugins"]

/-! ### What an extraction touches -/

/-- No member leaves the folder that the archive is unpacked to. -/
def Contained (extension : Extension) (contents : Contents) : Prop :=
  ∀ m ∈ contents.members, skips extension m = true ∨ StaysBelow m.name

theorem mem_intercalate {α : Type} {sep part : List α} {parts : List (List α)}
    (h : part ∈ parts) : part <:+: sep.intercalate parts := by
  induction parts with
  | nil => cases h
  | cons p ps ih =>
    rcases List.mem_cons.mp h with rfl | hmem
    · cases ps with
      | nil =>
        rw [List.intercalate_singleton]
      | cons q qs =>
        rw [List.intercalate_cons_cons, List.append_assoc]
        exact (List.prefix_append _ _).isInfix
    · cases ps with
      | nil => cases hmem
      | cons q qs =>
        rw [List.intercalate_cons_cons]
        exact (ih hmem).trans (List.suffix_append _ _).isInfix

/-- What a zip does not skip stays below. -/
theorem zip_contained (contents : Contents) : Contained .zip contents := by
  intro m _
  by_cases hskip : skips .zip m = true
  · exact Or.inl hskip
  · have hkept : isAbsolute m.name = false ∧ ¬ ['.', '.'] <:+: m.name.toList := by
      simpa [skips] using hskip
    refine Or.inr ⟨hkept.1, ?_⟩
    intro hdots
    obtain ⟨part, hpart, he⟩ := List.mem_map.mp hdots
    have hchars : part = ['.', '.'] := by
      have := congrArg String.toList he
      simpa using this
    apply hkept.2
    have hjoin : ['/'].intercalate (m.name.toList.splitOn '/') = m.name.toList :=
      List.intercalate_splitOn '/'
    rw [← hjoin]
    exact mem_intercalate (hchars ▸ hpart)

theorem unpack_member_grown {extension : Extension} {tmp : FilePath} {fs : FileSystem}
    {m : ArchiveMember} (hp : Present tmp fs)
    (hm : skips extension m = true ∨ StaysBelow m.name) :
    (unpackMember extension tmp fs m).Ends (Grown (fun k => tmp <+: k) fs)
      (Grown (fun k => tmp <+: k) fs) := by
  unfold unpackMember
  split
  · exact Grown.refl _ fs
  · rename_i hskip
    have hbelow : tmp <+: joinPath tmp m.name :=
      join_stays_below (hm.resolve_left hskip) tmp
    apply (make_parents_grown hp hbelow).andThen
    intro t ht
    cases m.node with
    | folder =>
      exact (make_folder_grown (fun _ _ => hbelow)).mono (fun u hu => ht.trans hu)
        (fun u hu => ht.trans hu)
    | file content =>
      exact (write_file_grown content hbelow).mono (fun u hu => ht.trans hu)
        (fun u hu => ht.trans hu)

theorem unpack_grown {extension : Extension} {contents : Contents} {tmp : FilePath}
    {fs : FileSystem} (hp : Present tmp fs) (hc : Contained extension contents) :
    (unpackArchive extension contents tmp fs).Ends (Grown (fun k => tmp <+: k) fs)
      (Grown (fun k => tmp <+: k) fs) := by
  have hloop : (Outcome.loop (unpackMember extension tmp) contents.members fs).Ends
      (Grown (fun k => tmp <+: k) fs) (Grown (fun k => tmp <+: k) fs) := by
    refine Outcome.Ends.loop ?_ (Grown.refl _ fs)
    intro m hm t ht
    exact (unpack_member_grown (ht.present hp) (hc m hm)).mono (fun u hu => ht.trans hu)
      (fun u hu => ht.trans hu)
  apply hloop.andThen
  intro t ht
  split <;> exact ht

theorem folder_to_copy_below (tmp : FilePath) (fs : FileSystem) : tmp <+: folderToCopy tmp fs := by
  unfold folderToCopy
  split
  · split
    · exact List.prefix_append _ _
    · exact List.prefix_refl tmp
  · exact List.prefix_refl tmp

/-- The old folder and the unpacked archive. -/
def OwnTrees (extracted tmp k : FilePath) : Prop := extracted <+: k ∨ tmp <+: k

section Place

variable {tmp dir folder : FilePath} {name : String} {fs : FileSystem}

theorem present_outside {t : FileSystem} (hp : Present dir fs) (hapart : ¬ tmp <+: dir)
    (h : SameOutside (OwnTrees (dir ++ [name]) tmp) fs t) : Present dir t := by
  apply h.present hp
  intro k hk hin
  rcases hin with hown | htmp
  · have hlength := (hown.trans hk).length_le
    simp only [List.length_append, List.length_singleton] at hlength
    omega
  · exact hapart (htmp.trans hk)

theorem replace_same (hfolder : tmp <+: folder) :
    (replaceExtracted folder (dir ++ [name]) fs).Ends
      (fun t => SameOutside (OwnTrees (dir ++ [name]) tmp) fs t ∧
        t.get? (dir ++ [name]) ≠ some .folder)
      (SameOutside (OwnTrees (dir ++ [name]) tmp) fs) := by
  unfold replaceExtracted
  split
  · have hsettings : tmp <+: joinPath folder "settings.json" :=
      hfolder.trans (join_stays_below ⟨by decide, by decide⟩ folder)
    have hcopy : (match fs.get? (joinPath (dir ++ [name]) "settings.json") with
        | some (.file settings) => writeFile (joinPath folder "settings.json") settings fs
        | _ => .returned fs).Ends (SameOutside (OwnTrees (dir ++ [name]) tmp) fs)
          (SameOutside (OwnTrees (dir ++ [name]) tmp) fs) := by
      split
      · refine (write_file_grown _ hsettings).mono ?_ ?_
        all_goals
          intro t ht
          exact Grown.same ht |>.mono (fun k hk => Or.inr hk)
      · exact fun _ _ => rfl
    apply hcopy.andThen
    intro t ht
    refine ((rmtree_same (dir ++ [name]) t).both (rmtree_gone (dir ++ [name]) t)).mono ?_ ?_
    · intro u hu
      obtain ⟨hsame, hgone⟩ := hu
      refine ⟨ht.trans (hsame.mono (fun k hk => Or.inl hk)), ?_⟩
      rw [hgone]
      simp
    · intro u hu
      rw [hu.1]
      exact ht
  · rename_i hmissing
    refine ⟨fun _ _ => rfl, ?_⟩
    intro hget
    exact hmissing (by rw [pathExists, hget]; rfl)

theorem cleanup_same (tmp : FilePath) (fs : FileSystem) :
    (cleanup tmp fs).Ends (SameOutside (fun k => tmp <+: k) fs)
      (SameOutside (fun k => tmp <+: k) fs) := by
  unfold cleanup
  split
  · apply (rmtree_same tmp fs).mono (fun t ht => ht)
    intro t ht
    rw [ht]
    exact fun _ _ => rfl
  · exact fun _ _ => rfl

theorem place_same (hp : Present dir fs) (hapart : ¬ tmp <+: dir) :
    (placePlugin tmp (dir ++ [name]) fs).Ends (SameOutside (OwnTrees (dir ++ [name]) tmp) fs)
      (SameOutside (OwnTrees (dir ++ [name]) tmp) fs) := by
  have hfolder := folder_to_copy_below tmp fs
  unfold placePlugin
  simp only
  apply (replace_same hfolder).andThen
  intro t ht
  obtain ⟨ht, hnew⟩ := ht
  have hparent : Present (dir ++ [name]).dropLast t := by
    rw [List.dropLast_concat]
    exact present_outside hp hapart ht
  have hmove : (move (folderToCopy tmp fs) (dir ++ [name]) t).Ends
      (SameOutside (OwnTrees (dir ++ [name]) tmp) fs)
      (SameOutside (OwnTrees (dir ++ [name]) tmp) fs) := by
    refine (move_same hparent hnew).mono ?_ ?_
    · intro u hu
      refine ht.trans (hu.mono ?_)
      intro k hk
      exact hk.symm.imp_right (fun h => hfolder.trans h)
    · intro u hu
      rw [hu]
      exact ht
  apply hmove.andThen
  intro u hu
  refine (cleanup_same tmp u).mono ?_ ?_
  all_goals
    intro v hv
    exact hu.trans (SameOutside.mono hv (fun k hk => Or.inr hk))

end Place

theorem create_id {slugify : String → String} {path : String} {x : PluginExtractor}
    (h : PluginExtractor.create slugify path = .ok x) : x.id = createPluginId slugify path := by
  unfold PluginExtractor.create at h
  split at h
  · cases h
  · rw [← Except.ok.inj h]

theorem SlugChars.excludes {slugify : String → String} (h : SlugChars slugify) (name : String)
    {c : Char} (hlower : c.isLower = false) (hdigit : c.isDigit = false) (hline : c ≠ '_') :
    c ∉ (slugify name).toList := by
  intro hc
  have hchar := h name c hc
  simp [hlower, hdigit, hline] at hchar

/-- An empty slug leaves the path at the plugins folder itself. -/
theorem extracted_path_eq {slugify : String → String} (hslug : SlugChars slugify) {path : String}
    {x : PluginExtractor} (hx : PluginExtractor.create slugify path = .ok x) (dir : FilePath) :
    x.extractedPath dir = if x.id = "" then dir else dir ++ [x.id] := by
  refine join_name dir ?_ ?_
  · rw [create_id hx]
    exact hslug.excludes _ (by decide) (by decide) (by decide)
  · rw [create_id hx]
    exact hslug.excludes _ (by decide) (by decide) (by decide)

/-- Where the folders of the MadHatter are on disk. -/
def FolderPath.filePath : FolderPath → FilePath
  | .core => ["app", "cat", "mad_hatter", "core_plugin"]
  | .plugins => pluginsFolder
  | .plugin name _ => pluginsFolder ++ [name]

/-- An archive is placed in the folder that the MadHatter loads. -/
theorem archive_path_extracted {slugify : String → String} (hslug : SlugChars slugify)
    {path : String} {x : PluginExtractor} (hx : PluginExtractor.create slugify path = .ok x)
    (a : Archive) (ha : a.slug = x.id) : a.path.filePath = x.extractedPath pluginsFolder := by
  rw [extracted_path_eq hslug hx, Archive.path, ← ha]
  split <;> rfl

/-- One child of the plugins folder changes, and is what is returned. The temporary folder
aside, nothing else is written or deleted. -/
def OwnFolderOnly (x : PluginExtractor) (uuid : String) (contents : Contents)
    (fs : FileSystem) : Prop :=
  ∃ name, name ≠ "" ∧ (x.extract uuid contents pluginsFolder fs).Ends
    (fun t => x.extractedPath pluginsFolder = pluginsFolder ++ [name] ∧
      SameOutside (OwnTrees (pluginsFolder ++ [name]) (tmpFolder uuid)) fs t)
    (SameOutside (OwnTrees (pluginsFolder ++ [name]) (tmpFolder uuid)) fs)

theorem tmp_apart (uuid : String) : ¬ tmpFolder uuid <+: pluginsFolder := by
  intro h
  have hhead := (List.cons_prefix_cons.mp h).1
  revert hhead
  decide

theorem mkdir_tmp (uuid : String) (fs : FileSystem) :
    (mkdir (tmpFolder uuid) fs).Ends
      (fun t => Grown (fun k => tmpFolder uuid <+: k) fs t ∧ Present (tmpFolder uuid) t)
      (fun t => t = fs) := by
  refine (mkdir_grown (tmpFolder uuid) fs).mono ?_ (fun t ht => ht)
  intro t ht
  obtain ⟨hgrown, _, hself, hparent⟩ := ht
  refine ⟨hgrown, ?_⟩
  intro k hne hk
  have htmp : t.get? ["tmp"] = some .folder := hparent.resolve_left (by simp [tmpFolder])
  have hmem : k = [] ∨ k = ["tmp"] ∨ k = tmpFolder uuid := by
    simpa [tmpFolder] using (List.mem_inits k (tmpFolder uuid)).mpr hk
  rcases hmem with rfl | rfl | rfl
  · exact absurd rfl hne
  · exact htmp
  · exact hself

theorem extract_own_folder {x : PluginExtractor} {contents : Contents} (hid : x.id ≠ "")
    (hpath : x.extractedPath pluginsFolder = pluginsFolder ++ [x.id])
    (hc : Contained x.extension contents) (uuid : String) {fs : FileSystem}
    (hp : Present pluginsFolder fs) : OwnFolderOnly x uuid contents fs := by
  let own := OwnTrees (pluginsFolder ++ [x.id]) (tmpFolder uuid)
  have htmp (k : FilePath) (hk : tmpFolder uuid <+: k) : own k := Or.inr hk
  have hextract : (x.extract uuid contents pluginsFolder fs).Ends (SameOutside own fs)
      (SameOutside own fs) := by
    unfold PluginExtractor.extract
    rw [hpath]
    refine ((mkdir_tmp uuid fs).mono (fun t ht => ht) ?_).andThen ?_
    · intro t ht
      rw [ht]
      exact fun _ _ => rfl
    intro t ht
    obtain ⟨hgrown, htmpPresent⟩ := ht
    refine ((unpack_grown htmpPresent hc).mono (fun u hu => hgrown.trans hu) ?_).andThen ?_
    · intro u hu
      exact (hgrown.trans hu).same.mono htmp
    intro u hu
    refine (place_same (hu.present hp) (tmp_apart uuid)).mono ?_ ?_
    all_goals
      intro v hv
      exact (hu.same.mono htmp).trans hv
  exact ⟨x.id, hid, hextract.mono (fun t ht => ⟨hpath, ht⟩) (fun t ht => ht)⟩

theorem other_child_outside {name other : String} (h : name ≠ other) (uuid : String) :
    ¬ OwnTrees (pluginsFolder ++ [name]) (tmpFolder uuid) (pluginsFolder ++ [other]) := by
  simp [OwnTrees, pluginsFolder, tmpFolder, h]

/-- A disk without plugins. -/
def bareDisk : FileSystem :=
  Dict.ofList [(["tmp"], .folder), (["app"], .folder), (["app", "cat"], .folder),
    (pluginsFolder, .folder)]

/-- With an empty slug the plugins folder itself is replaced and returned. -/
theorem empty_slug_not_own {x : PluginExtractor}
    (hpath : x.extractedPath pluginsFolder = pluginsFolder) :
    ¬ OwnFolderOnly x "u" ⟨[], none⟩ bareDisk := by
  intro h
  obtain ⟨name, _, hends⟩ := h
  let made := (mkdir (tmpFolder "u") bareDisk).state
  have hmade : mkdir (tmpFolder "u") bareDisk = .returned made :=
    Outcome.eq_returned_of_returns (by decide +kernel)
  have hunpacked : unpackArchive x.extension ⟨[], none⟩ (tmpFolder "u") made = .returned made := rfl
  have hreturns : (x.extract "u" ⟨[], none⟩ pluginsFolder bareDisk).returns = true := by
    unfold PluginExtractor.extract
    rw [hmade, hpath, Outcome.andThen, hunpacked, Outcome.andThen]
    decide +kernel
  have hchild := (hends.of_returned (Outcome.eq_returned_of_returns hreturns)).1
  rw [hpath] at hchild
  simp at hchild

/-- Two files that a tar puts next to the plugins. -/
def strayFiles : Contents where
  members := [⟨"/app/cat/plugins/a.py", .file ""⟩, ⟨"/app/cat/plugins/b.py", .file ""⟩]

/-- A tar is unpacked with all its members, wherever their names lead. -/
theorem stray_files_not_own {x : PluginExtractor} (hdot : '.' ∉ x.id.toList)
    (hpath : x.extractedPath pluginsFolder = pluginsFolder ++ [x.id])
    (htar : x.extension = .tar) : ¬ OwnFolderOnly x "u" strayFiles bareDisk := by
  intro h
  obtain ⟨name, _, hends⟩ := h
  let made := (mkdir (tmpFolder "u") bareDisk).state
  let unpacked := (unpackArchive .tar strayFiles (tmpFolder "u") made).state
  have hmade : mkdir (tmpFolder "u") bareDisk = .returned made :=
    Outcome.eq_returned_of_returns (by decide +kernel)
  have hunpacked : unpackArchive .tar strayFiles (tmpFolder "u") made = .returned unpacked :=
    Outcome.eq_returned_of_returns (by decide +kernel)
  have hextract : x.extract "u" strayFiles pluginsFolder bareDisk =
      placePlugin (tmpFolder "u") (pluginsFolder ++ [x.id]) unpacked := by
    unfold PluginExtractor.extract
    rw [hmade, htar, hpath, Outcome.andThen, hunpacked, Outcome.andThen]
  have hplace : SameOutside (OwnTrees (pluginsFolder ++ [x.id]) (tmpFolder "u")) unpacked
      (x.extract "u" strayFiles pluginsFolder bareDisk).state := by
    rw [hextract]
    exact (place_same (by decide) (tmp_apart "u")).state
  have hown : SameOutside (OwnTrees (pluginsFolder ++ [name]) (tmpFolder "u")) bareDisk
      (x.extract "u" strayFiles pluginsFolder bareDisk).state :=
    (hends.mono (fun t ht => ht.2) (fun t ht => ht)).state
  have hstray (file : String) (hfile : '.' ∈ file.toList) (hname : name ≠ file)
      (hbefore : bareDisk.get? (pluginsFolder ++ [file]) = none)
      (hafter : unpacked.get? (pluginsFolder ++ [file]) = some (.file "")) : False := by
    have hid : x.id ≠ file := fun he => hdot (he ▸ hfile)
    have hsame := hown _ (other_child_outside hname "u")
    rw [hplace _ (other_child_outside hid "u"), hbefore, hafter] at hsame
    cases hsame
  by_cases hname : name = "a.py"
  · exact hstray "b.py" (by decide) (by rw [hname]; decide) (by decide) (by decide +kernel)
  · exact hstray "a.py" (by decide) hname (by decide) (by decide +kernel)

/-- An extraction touches its own folder only exactly where the file name has a slug that is
not empty and, over all archives, where it names a zip: a tar may hold members that leave
the folder it is unpacked to. -/
theorem own_folder_only_iff (slugify : String → String) (hslug : SlugChars slugify) (path : String)
    (x : PluginExtractor) (hx : PluginExtractor.create slugify path = .ok x) :
    ((∀ uuid contents fs, Contained x.extension contents → Present pluginsFolder fs →
        OwnFolderOnly x uuid contents fs) ↔ x.id ≠ "") ∧
      ((∀ uuid contents fs, Present pluginsFolder fs → OwnFolderOnly x uuid contents fs) ↔
        x.id ≠ "" ∧ x.extension = .zip) := by
  have hpath := extracted_path_eq hslug hx pluginsFolder
  have hbare : Present pluginsFolder bareDisk := by decide
  have hnone : Contained x.extension ⟨[], none⟩ := fun m hm => by cases hm
  refine ⟨⟨?_, ?_⟩, ⟨?_, ?_⟩⟩
  · intro h hid
    rw [if_pos hid] at hpath
    exact empty_slug_not_own hpath (h "u" ⟨[], none⟩ bareDisk hnone hbare)
  · intro hid uuid contents fs hc hp
    rw [if_neg hid] at hpath
    exact extract_own_folder hid hpath hc uuid hp
  · intro h
    have hid : x.id ≠ "" := by
      intro hid
      rw [if_pos hid] at hpath
      exact empty_slug_not_own hpath (h "u" ⟨[], none⟩ bareDisk hbare)
    rw [if_neg hid] at hpath
    refine ⟨hid, ?_⟩
    cases hext : x.extension with
    | zip => rfl
    | tar =>
      have hdot : '.' ∉ x.id.toList := by
        rw [create_id hx]
        exact hslug.excludes _ (by decide) (by decide) (by decide)
      exact absurd (h "u" strayFiles bareDisk hbare) (stray_files_not_own hdot hpath hext)
  · intro h uuid contents fs hp
    obtain ⟨hid, hzip⟩ := h
    rw [if_neg hid] at hpath
    refine extract_own_folder hid hpath ?_ uuid hp
    rw [hzip]
    exact zip_contained contents

/-- `slugify` on names that are slugs, and on names without a letter or a digit. -/
def plainSlugify (name : String) : String :=
  String.ofList ((name.toList.map Char.toLower).filter
    (fun c => c.isLower ∨ c.isDigit ∨ c = '_'))

theorem plain_slug_chars : SlugChars plainSlugify := by
  intro name c hc
  rw [plainSlugify, String.toList_ofList] at hc
  exact of_decide_eq_true (List.mem_filter.mp hc).2

/-- The disk with a plugin in the plugins folder. -/
def zooFiles : FileSystem :=
  (bareDisk.set (pluginsFolder ++ ["zoo"]) .folder).set (pluginsFolder ++ ["zoo", "zoo.py"]) (.file "")

def mockPlugin : Contents where
  members := [⟨"mock_plugin/", .folder⟩, ⟨"mock_plugin/mock_tool.py", .file ""⟩]

theorem own_folder_only_mock_plugin :
    OwnFolderOnly ⟨"/tmp/mock_plugin.zip", .zip, "mock_plugin"⟩ "u" mockPlugin zooFiles := by
  have h := own_folder_only_iff plainSlugify plain_slug_chars "/tmp/mock_plugin.zip"
    ⟨"/tmp/mock_plugin.zip", .zip, "mock_plugin"⟩ (by decide +kernel)
  exact h.2.mpr ⟨by decide, rfl⟩ "u" mockPlugin zooFiles (by decide)

/-- A file name without a letter or a digit. -/
def dashZip : PluginExtractor := ⟨"/tmp/-.zip", .zip, ""⟩

/-- The name `-.zip` has an empty slug, and its installation deletes the other plugins. -/
theorem dash_archive_deletes_zoo :
    SlugChars plainSlugify ∧ PluginExtractor.create plainSlugify "/tmp/-.zip" = .ok dashZip ∧
      Present pluginsFolder zooFiles ∧
      zooFiles.get? (pluginsFolder ++ ["zoo", "zoo.py"]) = some (.file "") ∧
      (∃ t, dashZip.extract "u" mockPlugin pluginsFolder zooFiles = .returned t ∧
        t.get? (pluginsFolder ++ ["zoo", "zoo.py"]) = none) ∧
      ¬ OwnFolderOnly dashZip "u" mockPlugin zooFiles := by
  have hreturns : dashZip.extract "u" mockPlugin pluginsFolder zooFiles =
      .returned (dashZip.extract "u" mockPlugin pluginsFolder zooFiles).state :=
    Outcome.eq_returned_of_returns (by decide +kernel)
  have hpath : dashZip.extractedPath pluginsFolder = pluginsFolder := by decide
  refine ⟨plain_slug_chars, by decide +kernel, by decide, by decide,
    ⟨_, hreturns, by decide +kernel⟩, ?_⟩
  intro h
  obtain ⟨name, _, hends⟩ := h
  have hchild := (hends.of_returned hreturns).1
  rw [hpath] at hchild
  simp at hchild

end CheshireCat.MadHatter
