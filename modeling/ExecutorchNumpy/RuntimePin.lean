import ExecutorchNumpy.PinFile

/-! # Configure runs of one build directory

`RuntimePin.cmake` recomputes the advertised version in every run. The prefix of
the runtime that is linked stays in the CMake cache, and a cached prefix also
keeps later runs from fetching.
-/

namespace ExecutorchNumpy
set_option autoImplicit false

open PinFile
open CmakeValues (Text isOff isOn)

namespace RuntimePin

/-! ## CMake's part -/

/-- `set(<variable> <value> CACHE …)` keeps an entry that exists. -/
def setCache (entry : Option Text) (value : Text) : Option Text := some (entry.getD value)

/-- The entries of `CMakeCache.txt` that `RuntimePin.cmake` reads. -/
structure Cache where
  runtimePrefix : Option Text
  variant : Option Text
  platform : Option Text
  deriving DecidableEq, Repr

/-- An unpacked tarball: its files with their contents, and the ExecuTorch version it was built from. -/
structure Tree where
  files : List (Text × Text)
  etVersion : Text
  deriving DecidableEq, Repr

def executorchConfig : Text := "lib/cmake/ExecuTorch/executorch-config.cmake".toList

/-- `EXISTS` of the package configuration below the prefix. -/
def Tree.hasConfig (tree : Tree) : Bool := tree.files.any fun file => file.1 == executorchConfig

/-- `tree` is what stands at `SOURCE_DIR`. -/
structure BuildDir where
  cache : Cache
  tree : Option Tree
  deriving DecidableEq, Repr

def BuildDir.empty : BuildDir := ⟨⟨none, none, none⟩, none⟩

/-- Where `FetchContent` unpacks, and what the declared URLs hold. -/
structure Network where
  sourceDir : Text
  serves : Text → Text → Option Tree
  sourceDir_on : isOff sourceDir = false

/-! ## Pins and runs -/

def pinScope (file : PinFile) : Scope := evalItems ⟨fun _ => none, false⟩ file.items

def selectedTree (net : Network) (file : PinFile) (variant platform : Text) : Option Tree :=
  match etRuntimeDistUrl (pinScope file) variant platform with
  | .error _ => none
  | .ok (url, sha) => net.serves url sha

/-- The pin of a release: its rows lead to tarballs of the version it names. -/
structure Release (net : Network) where
  file : PinFile
  versioned : ∀ {variant platform : Text} {tree : Tree},
    selectedTree net file variant platform = some tree →
      (pinScope file).vars "ET_RUNTIME_ET_VERSION".toList = some tree.etVersion

structure Target where
  processor : Text
  win32 : Bool
  unix : Bool
  apple : Bool
  deriving DecidableEq, Repr

inductive FatalError where
  | unsupportedArchitecture (processor : Text)
  | unsupportedOs
  | noArtifact (reason : Abort)
  | fetchFailed (url : Text)
  | runtimeNotFound (runtimePrefix : Text)
  deriving DecidableEq, Repr

/-- One run of `cmake`: the pin file of the moment, the `-D` options for the variant and the
platform, and whether a download would go through; a failed one leaves some tree behind. -/
structure Run (net : Network) where
  release : Release net
  variant : Option Text
  platform : Option Text
  target : Target
  online : Bool
  leftBehind : Option Tree

def detectPlatform (target : Target) : Except FatalError Text := do
  let arch := target.processor.map Char.toLower
  let machine ←
    if arch = "x86_64".toList ∨ arch = "amd64".toList then .ok "x86_64".toList
    else if arch = "aarch64".toList ∨ arch = "arm64".toList then .ok "aarch64".toList
    else .error (.unsupportedArchitecture target.processor)
  let os ←
    if target.win32 then .ok "windows".toList
    else if target.unix ∧ ¬ target.apple then .ok "linux".toList
    else .error .unsupportedOs
  return os ++ "-".toList ++ machine

/-- `_ETNP_PLATFORM`: the cached value of a `-D` option, else the detected platform. -/
def platformOf (platform : Option Text) (target : Target) : Except FatalError Text :=
  if isOn platform then .ok (platform.getD []) else detectPlatform target

structure Configured where
  runtimePrefix : Text
  etVersion : Text
  deriving DecidableEq, Repr

/-- The check at the end of the file. -/
def requireRuntime (net : Network) (file : PinFile) (dir : BuildDir) :
    Except FatalError Configured × BuildDir :=
  let runtimePrefix := dir.cache.runtimePrefix.getD []
  let present := if runtimePrefix = net.sourceDir then dir.tree.any Tree.hasConfig else false
  if present then
    (.ok ⟨runtimePrefix, ((pinScope file).vars "ET_RUNTIME_ET_VERSION".toList).getD []⟩, dir)
  else (.error (.runtimeNotFound runtimePrefix), dir)

/-- `RuntimePin.cmake`. The cache is kept also when the run ends in a fatal error. -/
def configure (net : Network) (run : Run net) (dir : BuildDir) :
    Except FatalError Configured × BuildDir :=
  let variant := (run.variant.or dir.cache.variant).getD "logging".toList
  let cached := run.platform.or dir.cache.platform
  let declared : BuildDir := { dir with cache := ⟨dir.cache.runtimePrefix, some variant, cached⟩ }
  match platformOf cached run.target with
  | .error e => (.error e, declared)
  | .ok platform =>
    let runtimePrefix := setCache dir.cache.runtimePrefix []
    let ready : BuildDir := { dir with cache := ⟨runtimePrefix, some variant, cached⟩ }
    if isOn runtimePrefix then requireRuntime net run.release.file ready
    else
      match etRuntimeDistUrl (pinScope run.release.file) variant platform with
      | .error e => (.error (.noArtifact e), ready)
      | .ok (url, sha) =>
        match (if run.online then net.serves url sha else none) with
        | none => (.error (.fetchFailed url), { ready with tree := run.leftBehind })
        | some tree =>
          requireRuntime net run.release.file ⟨⟨some net.sourceDir, some variant, cached⟩, some tree⟩

def afterRuns (net : Network) (runs : List (Run net)) : BuildDir :=
  runs.foldl (fun dir run => (configure net run dir).2) BuildDir.empty

/-- A successful run has linked the tarball that the current pin selects for the current variant
and platform, and advertises its version. -/
structure LinksSelected (net : Network) (run : Run net) (dir : BuildDir) (result : Configured) :
    Prop where
  selected : ∃ platform tree, platformOf dir.cache.platform run.target = .ok platform ∧
    selectedTree net run.release.file (dir.cache.variant.getD []) platform = some tree ∧
    dir.tree = some tree ∧ result.etVersion = tree.etVersion
  linked : result.runtimePrefix = net.sourceDir

/-- The advertised runtime version is the linked one, after every run of the history. -/
def AdvertisesLinked (net : Network) (runs : List (Run net)) : Prop :=
  ∀ before run after result, runs = before ++ run :: after →
    (configure net run (afterRuns net before)).1 = .ok result →
      LinksSelected net run (configure net run (afterRuns net before)).2 result

/-! ## What a history of runs has asked for -/

/-- The user's choices so far: the last `-D` option for the variant and for the platform. -/
structure Choices where
  variant : Option Text
  platform : Option Text
  deriving DecidableEq, Repr

section Histories

variable {net : Network}

def Choices.update (choices : Choices) (run : Run net) : Choices :=
  ⟨run.variant.or choices.variant, run.platform.or choices.platform⟩

def choicesAfter (runs : List (Run net)) : Choices := runs.foldl Choices.update ⟨none, none⟩

/-- The tarball that the pin of a run selects under the choices made up to it. -/
def wants (choices : Choices) (run : Run net) : Option Tree :=
  match platformOf choices.platform run.target with
  | .error _ => none
  | .ok platform => selectedTree net run.release.file (choices.variant.getD "logging".toList) platform

def downloads (choices : Choices) (run : Run net) : Option Tree :=
  if run.online then wants choices run else none

/-- What the first run that could download something has downloaded. -/
def firstDownload (choices : Choices) : List (Run net) → Option Tree
  | [] => none
  | run :: runs =>
    (downloads (choices.update run) run).or (firstDownload (choices.update run) runs)

/-! ## The cache against the history -/

/-- `held` is the tree that the build directory is bound to. -/
structure Tracks (net : Network) (dir : BuildDir) (choices : Choices) (held : Option Tree) : Prop where
  variant : dir.cache.variant.getD "logging".toList = choices.variant.getD "logging".toList
  platform : dir.cache.platform = choices.platform
  unbound : held = none → isOn dir.cache.runtimePrefix = false
  bound : ∀ tree, held = some tree →
    dir.cache.runtimePrefix = some net.sourceDir ∧ dir.tree = some tree

theorem isOn_setCache (entry : Option Text) : isOn (setCache entry []) = isOn entry := by
  cases entry with
  | none => rfl
  | some text => rfl

theorem or_getD_congr {given left right : Option Text} {d : Text} (h : left.getD d = right.getD d) :
    (given.or left).getD d = (given.or right).getD d := by
  cases given with
  | none => exact h
  | some text => rfl

/-- The cached variant and platform after a run; the prefix and the tree are the caller's. -/
def recorded (choices : Choices) (runtimePrefix : Option Text) (tree : Option Tree) : BuildDir :=
  ⟨⟨runtimePrefix, some (choices.variant.getD "logging".toList), choices.platform⟩, tree⟩

theorem tracks_recorded {choices : Choices} {runtimePrefix : Option Text} {tree held : Option Tree}
    (hUnbound : held = none → isOn runtimePrefix = false)
    (hBound : ∀ t, held = some t → runtimePrefix = some net.sourceDir ∧ tree = some t) :
    Tracks net (recorded choices runtimePrefix tree) choices held where
  variant := rfl
  platform := rfl
  unbound := hUnbound
  bound := hBound

theorem requireRuntime_bound (file : PinFile) (choices : Choices) (tree : Tree) :
    requireRuntime net file (recorded choices (some net.sourceDir) (some tree)) =
      (if tree.hasConfig then
          .ok ⟨net.sourceDir, ((pinScope file).vars "ET_RUNTIME_ET_VERSION".toList).getD []⟩
        else .error (.runtimeNotFound net.sourceDir),
        recorded choices (some net.sourceDir) (some tree)) := by
  simp only [requireRuntime, recorded, Option.getD_some, if_true, Option.any_some]
  split <;> rfl

section OneRun

variable {dir : BuildDir} {choices : Choices} {held : Option Tree} {run : Run net}

theorem configure_of_no_platform {e : FatalError} (h : Tracks net dir choices held)
    (hPlatform : platformOf (choices.update run).platform run.target = .error e) :
    configure net run dir =
      (.error e, recorded (choices.update run) dir.cache.runtimePrefix dir.tree) := by
  have hVariant := @or_getD_congr run.variant _ _ _ h.variant
  rw [Choices.update] at hPlatform
  simp only [configure, h.platform, hPlatform, hVariant]
  rfl

theorem configure_of_bound {platform : Text} {tree : Tree} (h : Tracks net dir choices held)
    (hHeld : held = some tree)
    (hPlatform : platformOf (choices.update run).platform run.target = .ok platform) :
    configure net run dir = requireRuntime net run.release.file
      (recorded (choices.update run) (some net.sourceDir) (some tree)) := by
  obtain ⟨hPrefix, hTree⟩ := h.bound tree hHeld
  have hVariant := @or_getD_congr run.variant _ _ _ h.variant
  have hOn : isOn (setCache dir.cache.runtimePrefix []) = true := by
    rw [isOn_setCache, hPrefix, isOn, Option.any_some, net.sourceDir_on]
    rfl
  rw [Choices.update] at hPlatform
  simp only [configure, h.platform, hPlatform, hVariant, hOn, if_true]
  rw [hPrefix, hTree]
  rfl

theorem downloads_of_platform {platform : Text}
    (hPlatform : platformOf choices.platform run.target = .ok platform) :
    downloads choices run = if run.online then
      selectedTree net run.release.file (choices.variant.getD "logging".toList) platform else none := by
  rw [downloads, wants, hPlatform]

theorem configure_of_unbound {platform : Text} (h : Tracks net dir choices held)
    (hHeld : held = none)
    (hPlatform : platformOf (choices.update run).platform run.target = .ok platform) :
    (∃ tree, downloads (choices.update run) run = some tree ∧
        configure net run dir = requireRuntime net run.release.file
          (recorded (choices.update run) (some net.sourceDir) (some tree))) ∨
      downloads (choices.update run) run = none ∧ ∃ e runtimePrefix tree,
        isOn runtimePrefix = false ∧
          configure net run dir = (.error e, recorded (choices.update run) runtimePrefix tree) := by
  have hVariant := @or_getD_congr run.variant _ _ _ h.variant
  have hOff : isOn (setCache dir.cache.runtimePrefix []) = false := by
    rw [isOn_setCache, h.unbound hHeld]
  rw [downloads_of_platform hPlatform, selectedTree, Choices.update]
  rw [Choices.update] at hPlatform
  simp only [configure, h.platform, hPlatform, hVariant, hOff]
  cases etRuntimeDistUrl (pinScope run.release.file)
      ((run.variant.or choices.variant).getD "logging".toList) platform with
  | error e => exact Or.inr ⟨ite_self none, _, _, _, hOff, rfl⟩
  | ok row =>
    dsimp only
    cases hServed : (if run.online then net.serves row.1 row.2 else none) with
    | none => exact Or.inr ⟨rfl, _, _, _, hOff, rfl⟩
    | some tree => exact Or.inl ⟨tree, rfl, rfl⟩

end OneRun

/-- How a run ends: it needs a platform and a complete tree, and links that tree. -/
structure Verdict (run : Run net) (choices : Choices) (held : Option Tree) (dir : BuildDir)
    (outcome : Except FatalError Configured) : Prop where
  tracks : Tracks net dir choices held
  variant : ∀ result, outcome = .ok result →
    dir.cache.variant = some (choices.variant.getD "logging".toList)
  linked : ∀ result, outcome = .ok result → ∃ platform tree,
    platformOf choices.platform run.target = .ok platform ∧ held = some tree ∧
      tree.hasConfig = true ∧ result = ⟨net.sourceDir, ((pinScope run.release.file).vars "ET_RUNTIME_ET_VERSION".toList).getD []⟩
  succeeds : ∀ platform tree, platformOf choices.platform run.target = .ok platform →
    held = some tree → tree.hasConfig = true → ∃ result, outcome = .ok result

theorem verdict_of_error {run : Run net} {choices : Choices} {held : Option Tree} {dir : BuildDir}
    {e : FatalError} (hTracks : Tracks net dir choices held)
    (hFails : held = none ∨ ∃ e, platformOf choices.platform run.target = .error e) :
    Verdict run choices held dir (.error e) where
  tracks := hTracks
  variant := by simp
  linked := by simp
  succeeds platform tree hPlatform hHeld _ := by
    rcases hFails with hNone | ⟨e, hNone⟩
    · rw [hNone] at hHeld
      cases hHeld
    · rw [hNone] at hPlatform
      cases hPlatform

theorem verdict_requireRuntime {run : Run net} {choices : Choices} {platform : Text} {tree : Tree}
    (hPlatform : platformOf choices.platform run.target = .ok platform) :
    Verdict run choices (some tree)
      (requireRuntime net run.release.file (recorded choices (some net.sourceDir) (some tree))).2
      (requireRuntime net run.release.file (recorded choices (some net.sourceDir) (some tree))).1 := by
  rw [requireRuntime_bound]
  refine ⟨tracks_recorded (by simp) ?_, fun _ _ => rfl, ?_, ?_⟩
  · intro t hTree
    exact ⟨rfl, hTree⟩
  · intro result hOk
    dsimp only at hOk
    split at hOk
    · rename_i hConfig
      exact ⟨platform, tree, hPlatform, rfl, hConfig, (Except.ok.inj hOk).symm⟩
    · cases hOk
  · intro _ found _ hHeld hConfig
    cases hHeld
    exact ⟨_, if_pos hConfig⟩

theorem configure_step {dir : BuildDir} {choices : Choices} {held : Option Tree} (run : Run net)
    (h : Tracks net dir choices held) :
    Verdict run (choices.update run) (held.or (downloads (choices.update run) run))
      (configure net run dir).2 (configure net run dir).1 := by
  cases hPlatform : platformOf (choices.update run).platform run.target with
  | error e =>
    have hNone : downloads (choices.update run) run = none := by
      rw [downloads, wants, hPlatform]
      exact ite_self none
    rw [configure_of_no_platform h hPlatform, hNone, Option.or_none]
    apply verdict_of_error _ (Or.inr ⟨e, hPlatform⟩)
    exact tracks_recorded h.unbound h.bound
  | ok platform =>
    cases held with
    | some tree =>
      rw [configure_of_bound h rfl hPlatform, Option.some_or]
      exact verdict_requireRuntime hPlatform
    | none =>
      rw [Option.none_or]
      rcases configure_of_unbound h rfl hPlatform with
        ⟨tree, hTree, hRun⟩ | ⟨hNone, e, runtimePrefix, left, hOff, hRun⟩
      · rw [hRun, hTree]
        exact verdict_requireRuntime hPlatform
      · rw [hRun, hNone]
        apply verdict_of_error _ (Or.inl rfl)
        exact tracks_recorded (fun _ => hOff) (by simp)

/-- A whole history leaves the directory bound to the first tree that could be downloaded. -/
theorem tracks_afterRuns (runs : List (Run net)) :
    Tracks net (afterRuns net runs) (choicesAfter runs) (firstDownload ⟨none, none⟩ runs) := by
  have hGeneral : ∀ (runs : List (Run net)) (dir : BuildDir) (choices : Choices) (held : Option Tree),
      Tracks net dir choices held →
        Tracks net (runs.foldl (fun dir run => (configure net run dir).2) dir)
          (runs.foldl Choices.update choices) (held.or (firstDownload choices runs)) := by
    intro runs
    induction runs with
    | nil =>
      intro dir choices held h
      rw [firstDownload, Option.or_none]
      exact h
    | cons run runs ih =>
      intro dir choices held h
      have hNext := ih _ _ _ (configure_step run h).tracks
      rw [Option.or_assoc] at hNext
      exact hNext
  have hEmpty : Tracks net BuildDir.empty ⟨none, none⟩ none := ⟨rfl, rfl, fun _ => rfl, by simp⟩
  exact hGeneral runs _ _ _ hEmpty

theorem wants_of_downloads {choices : Choices} {run : Run net} {tree : Tree}
    (h : downloads choices run = some tree) : wants choices run = some tree := by
  unfold downloads at h
  split at h
  · exact h
  · cases h

theorem wants_eq_some_iff {choices : Choices} {run : Run net} {platform : Text} {tree : Tree}
    (hPlatform : platformOf choices.platform run.target = .ok platform) :
    wants choices run = some tree ↔
      selectedTree net run.release.file (choices.variant.getD "logging".toList) platform = some tree := by
  rw [wants, hPlatform]

/-- After the first download of a complete runtime, every run that gets as far as a platform
selects that same tarball. -/
def KeepsSelection (net : Network) (runs : List (Run net)) : Prop :=
  ∀ before run after platform tree, runs = before ++ run :: after →
    firstDownload ⟨none, none⟩ before = some tree → tree.hasConfig = true →
      platformOf ((choicesAfter before).update run).platform run.target = .ok platform →
        wants ((choicesAfter before).update run) run = some tree

theorem linksSelected_iff {before : List (Run net)} {run : Run net} {result : Configured}
    (hOk : (configure net run (afterRuns net before)).1 = .ok result) :
    LinksSelected net run (configure net run (afterRuns net before)).2 result ↔
      wants ((choicesAfter before).update run) run =
        (firstDownload ⟨none, none⟩ before).or (downloads ((choicesAfter before).update run) run) := by
  have hStep := configure_step run (tracks_afterRuns before)
  obtain ⟨platform, tree, hPlatform, hHeld, _, hResult⟩ := hStep.linked result hOk
  have hTree := (hStep.tracks.bound tree hHeld).2
  have hVariant := hStep.variant result hOk
  rw [hHeld, wants_eq_some_iff hPlatform]
  constructor
  · intro hLinks
    obtain ⟨platform', tree', hPlatform', hSelected, hTree', _⟩ := hLinks.selected
    rw [hStep.tracks.platform, hPlatform] at hPlatform'
    cases hPlatform'
    rw [hTree] at hTree'
    cases hTree'
    rw [hVariant] at hSelected
    exact hSelected
  · intro hSelected
    have hVersion := run.release.versioned hSelected
    refine ⟨⟨platform, tree, ?_, ?_, hTree, ?_⟩, ?_⟩
    · rw [hStep.tracks.platform]
      exact hPlatform
    · rw [hVariant]
      exact hSelected
    · rw [hResult, hVersion]
      rfl
    · rw [hResult]

/-- The linked runtime is the advertised one in every history that keeps its selection, and in no
other. -/
theorem advertised_is_linked_iff (net : Network) (runs : List (Run net)) :
    AdvertisesLinked net runs ↔ KeepsSelection net runs := by
  constructor
  · intro hAdvertises before run after platform tree hRuns hFirst hConfig hPlatform
    have hHeld : (firstDownload ⟨none, none⟩ before).or
        (downloads ((choicesAfter before).update run) run) = some tree := by
      rw [hFirst, Option.some_or]
    obtain ⟨result, hOk⟩ :=
      (configure_step run (tracks_afterRuns before)).succeeds platform tree hPlatform hHeld hConfig
    have hLinks := hAdvertises before run after result hRuns hOk
    rw [← hHeld]
    exact (linksSelected_iff hOk).mp hLinks
  · intro hKeeps before run after result hRuns hOk
    rw [linksSelected_iff hOk]
    obtain ⟨platform, tree, hPlatform, hHeld, hConfig, _⟩ :=
      (configure_step run (tracks_afterRuns before)).linked result hOk
    cases hFirst : firstDownload ⟨none, none⟩ before with
    | some first =>
      rw [hFirst, Option.some_or] at hHeld
      cases hHeld
      rw [Option.some_or]
      exact hKeeps before run after platform tree hRuns hFirst hConfig hPlatform
    | none =>
      rw [hFirst, Option.none_or] at hHeld
      rw [Option.none_or, hHeld]
      exact wants_of_downloads hHeld

end Histories

/-! ## A bump in an existing build directory -/

/-- The URL `u21` holds the release 2, a build of version 1, and so on. -/
def releases : Network where
  sourceDir := "/b/_deps/etnp_runtime-src".toList
  serves url _ :=
    match url with
    | [_, release, version] => some ⟨[(executorchConfig, [release])], [version]⟩
    | _ => none
  sourceDir_on := by decide

def versionName : Name := ⟨⟨"ET_RUNTIME_ET_VERSION".toList, by decide⟩, by decide⟩

def releasePin (release version : { c : Char // valueChar c = true }) : PinFile where
  items := [.set versionName .sameLine [.char version.val version.property],
    .set linuxRow .nextLine [.char 'u' (by decide), .char release.val release.property,
      .char version.val version.property], .distUrlFunction]
  selector := ⟨[_, _], [], rfl⟩

theorem vars_releasePin (release version : { c : Char // valueChar c = true }) (name : Text) :
    (pinScope (releasePin release version)).vars name =
      if name = linuxRow.text then some ['u', release.val, version.val]
      else if name = versionName.text then some [version.val] else none := rfl

def numbered (release version : { c : Char // valueChar c = true }) : Release releases where
  file := releasePin release version
  versioned := by
    intro variant platform tree hTree
    have hVersion : (pinScope (releasePin release version)).vars versionName.text =
        some [version.val] := by
      rw [vars_releasePin, if_neg (by decide), if_pos rfl]
    rw [selectedTree] at hTree
    cases hRow : etRuntimeDistUrl (pinScope (releasePin release version)) variant platform with
    | error e =>
      rw [hRow] at hTree
      cases hTree
    | ok row =>
      rw [hRow] at hTree
      change releases.serves row.1 row.2 = some tree at hTree
      have hUrl := ((etRuntimeDistUrl_eq_ok_iff (distUrl_of_file _ _)).mp hRow).1
      rw [← pinScope, vars_releasePin] at hUrl
      split at hUrl
      · rw [← Option.some.inj hUrl] at hTree
        cases hTree
        exact hVersion
      · split at hUrl
        · rw [← Option.some.inj hUrl] at hTree
          cases hTree
        · cases hUrl

def plainRun (release version : { c : Char // valueChar c = true }) : Run releases where
  release := numbered release version
  variant := none
  platform := none
  target := ⟨"x86_64".toList, false, true, false⟩
  online := true
  leftBehind := none

def one : { c : Char // valueChar c = true } := ⟨'1', by decide⟩

def two : { c : Char // valueChar c = true } := ⟨'2', by decide⟩

/-- From release 1 to release 2, which builds the version given. -/
def bump (version : { c : Char // valueChar c = true }) : List (Run releases) :=
  [plainRun one one, plainRun two version]

theorem configure_bump (version : { c : Char // valueChar c = true }) :
    configure releases (plainRun two version) (afterRuns releases [plainRun one one]) =
      (.ok ⟨releases.sourceDir, [version.val]⟩, recorded ⟨none, none⟩ (some releases.sourceDir)
        (some ⟨[(executorchConfig, ['1'])], ['1']⟩)) := by
  rfl

/-- After a bump the run advertises the new version and links the tree of the old release; so it does
when both releases build one version. -/
theorem bump_not_advertisesLinked :
    ¬ AdvertisesLinked releases (bump two) ∧ ¬ AdvertisesLinked releases (bump one) := by
  constructor
  · intro h
    have hLinks := h [plainRun one one] (plainRun two two) [] ⟨releases.sourceDir, ['2']⟩ rfl
      (congrArg Prod.fst (configure_bump two))
    rw [configure_bump] at hLinks
    obtain ⟨_, tree, _, _, hTree, hVersion⟩ := hLinks.selected
    cases hTree
    exact absurd hVersion (by decide)
  · intro h
    have hLinks := h [plainRun one one] (plainRun two one) [] ⟨releases.sourceDir, ['1']⟩ rfl
      (congrArg Prod.fst (configure_bump one))
    rw [configure_bump] at hLinks
    obtain ⟨platform, tree, hPlatform, hSelected, hTree, _⟩ := hLinks.selected
    cases hTree
    cases hPlatform
    have hNew : selectedTree releases (plainRun two one).release.file "logging".toList
        "linux-x86_64".toList = some ⟨[(executorchConfig, ['2'])], ['1']⟩ := rfl
    have hSame := hNew.symm.trans hSelected
    exact absurd hSame (by decide)

end RuntimePin

end ExecutorchNumpy
