import ExecutorchNumpy.Library.Traverse
import ExecutorchNumpy.PinFile

/-! # What CI reads off the pin file

`check-pin-rows.sh` and the scrape of `qa-gate.yml` search the lines of the pin
file for tarball names. The build asks CMake for the value of a variable.
-/

namespace ExecutorchNumpy
set_option autoImplicit false

open Grep PinFile Traverse
open CmakeValues (Text)

namespace PinRows

def platforms : List Text :=
  ["linux-x86_64", "linux-aarch64", "windows-x86_64"].map String.toList

def noQuote (run : Text) : Bool := run.all (· != '"')

def noQuotes (run : Text) : Bool := run != [] && noQuote run

/-- `https://[^"]*logging-<platform>\.tar\.gz` -/
def urlPattern (platform : Text) : Pattern Char :=
  ⟨"https://".toList, noQuote, "logging-".toList ++ platform ++ ".tar.gz".toList⟩

/-- `set\(<name> "[^"]+"\)` -/
def setPattern (name : Text) : Pattern Char :=
  ⟨"set(".toList ++ name ++ " \"".toList, noQuotes, "\")".toList⟩

/-- `"[^"]+"` -/
def quoted : Pattern Char := ⟨['"'], noQuotes, ['"']⟩

/-- `openvino==[0-9][^";]*` -/
def requirement : Pattern Char :=
  ⟨"openvino==".toList, fun run => run.head?.any Char.isDigit && run.all (fun c => c != '"' && c != ';'), []⟩

/-- `$(…)` drops the newlines at the end. -/
def substitution (lines : List Text) : Text :=
  ((List.intercalate ['\n'] lines).reverse.dropWhile (· == '\n')).reverse

/-- `cut -d= -f<n>` on a line that has the delimiter. -/
def cut (n : Nat) (line : Text) : Text := ((line.splitOn '=')[n - 1]?).getD []

inductive Failure where
  | pipeline
  | noVersion
  | urlCount (platform : Text) (count : Nat)
  | notTarball (platform url : Text)
  | staticRow (platform url : Text)
  | otherRelease (platform url version : Text)
  | noOpenvinoPin
  | noOpenvinoManifest
  | noOpenvinoPyproject
  | openvinoDisagrees (pin manifest pyproject : Text)
  deriving DecidableEq, Repr

/-- A pipeline whose first command finds nothing ends the script (`set -o pipefail`, `set -e`). -/
def pipeline (found : List Text) (rest : List Text → List Text) : Except Failure Text :=
  if found = [] then .error .pipeline else .ok (substitution (rest found))

def assigned (name : Text) (pin : List Text) : Except Failure Text :=
  pipeline (grep quoted (grep (setPattern name) pin)) (List.map (List.filter (· != '"')))

/-- `[ -n "$text" ] || fail …` -/
def requireText (failure : Failure) (text : Text) : Except Failure Unit :=
  if text = [] then .error failure else .ok ()

def checkPlatform (pin : List Text) (version platform : Text) : Except Failure Text :=
  let urls := grep (urlPattern platform) pin
  if urls.length ≠ 1 then .error (.urlCount platform urls.length)
  else
    let url := urls.headD []
    if ¬ ("logging-".toList ++ platform ++ ".tar.gz".toList) <:+ url then .error (.notTarball platform url)
    else if "-static.tar.gz".toList <:+ url then .error (.staticRow platform url)
    else if ¬ ("/download/v".toList ++ version ++ "/".toList) <:+: url then
      .error (.otherRelease platform url version)
    else .ok url

structure Report where
  version : Text
  urls : List Text
  openvino : Text
  deriving DecidableEq, Repr

def checkOpenvino (pin manifest pyproject : List Text) : Except Failure Text := do
  let ovPin ← assigned "ET_RUNTIME_OPENVINO_VERSION".toList pin
  let ovManifest ← pipeline (manifest.filter fun line => "openvino_version=".toList.isPrefixOf line)
    (List.map (cut 2))
  let ovPyproject ← pipeline (grep requirement pyproject) fun found => (found.take 1).map (cut 3)
  requireText .noOpenvinoPin ovPin
  requireText .noOpenvinoManifest ovManifest
  requireText .noOpenvinoPyproject ovPyproject
  if ovPin = ovManifest ∧ ovPin = ovPyproject then return ovPin
  else throw (.openvinoDisagrees ovPin ovManifest ovPyproject)

/-- `scripts/check-pin-rows.sh`; a result means exit status 0. -/
def checkPinRows (pin manifest pyproject : List Text) : Except Failure Report := do
  let version ← assigned "ET_RUNTIME_VERSION".toList pin
  requireText .noVersion version
  let urls ← traverseFrom (fun _ platform => checkPlatform pin version platform) 0 platforms
  let openvino ← checkOpenvino pin manifest pyproject
  return ⟨version, urls, openvino⟩

/-- The URL that `qa-gate.yml` downloads and verifies. -/
def scrapeUrl (platform : Text) (pin : List Text) : Option Text :=
  (grep (urlPattern platform) pin).head?

/-- CI verifies the very tarball that `et_runtime_dist_url("logging" <platform> …)` returns after
the file was included, on every platform of the project. -/
def VerifiesFetched (vars : Text → Option Text) (file : PinFile) : Prop :=
  ∀ platform ∈ platforms, ∃ url sha,
    etRuntimeDistUrl (evalItems ⟨vars, false⟩ file.items) "logging".toList platform = .ok (url, sha) ∧
      scrapeUrl platform file.lines = some url

/-! ## What an accepted file looks like -/

theorem checkPlatform_eq_ok {pin : List Text} {version platform url : Text}
    (h : checkPlatform pin version platform = .ok url) : grep (urlPattern platform) pin = [url] := by
  rw [checkPlatform] at h
  generalize grep (urlPattern platform) pin = urls at h ⊢
  split at h
  · cases h
  · rename_i hCount
    obtain ⟨found, rfl⟩ := List.length_eq_one_iff.mp (not_not.mp hCount)
    dsimp only at h
    split at h
    · cases h
    · split at h
      · cases h
      · split at h
        · cases h
        · cases h
          rfl

theorem exists_url_of_checkPinRows {pin manifest pyproject : List Text} {report : Report}
    (h : checkPinRows pin manifest pyproject = .ok report) {platform : Text}
    (hPlatform : platform ∈ platforms) : ∃ url, grep (urlPattern platform) pin = [url] := by
  rw [checkPinRows] at h
  obtain ⟨version, _, h⟩ := bind_eq_ok_iff.mp h
  obtain ⟨_, _, h⟩ := bind_eq_ok_iff.mp h
  obtain ⟨urls, hUrls, h⟩ := bind_eq_ok_iff.mp h
  obtain ⟨k, hk⟩ := List.mem_iff_getElem?.mp hPlatform
  obtain ⟨url, _, hUrl⟩ := (traverse_eq_ok_iff.mp hUrls).2 k platform hk
  exact ⟨url, checkPlatform_eq_ok hUrl⟩

theorem https_not_head {front r line : Text} (hColon : ':' ∉ front) (hNonempty : r ≠ [])
    (hSuffix : r <:+ front ++ ['"']) : ¬ "https://".toList <+: r ++ line := by
  intro hHead
  rcases List.prefix_or_prefix_of_prefix hHead (List.prefix_append r line) with hLong | hShort
  · have hMem : ':' ∈ r := hLong.subset (by decide)
    rcases List.mem_append.mp (hSuffix.subset hMem) with hFront | hQuote
    · exact hColon hFront
    · exact absurd hQuote (by decide)
  · have hLast : r.getLast hNonempty = '"' := by
      rw [hSuffix.getLast hNonempty, List.getLast_append_singleton]
    have hMem : '"' ∈ "https://".toList := hShort.subset (hLast ▸ List.getLast_mem hNonempty)
    exact absurd hMem (by decide)

theorem noQuote_iff {run : Text} : noQuote run = true ↔ ∀ c ∈ run, c ≠ '"' := by
  simp [noQuote]

theorem noQuote_of_accepts {platform text : Text} (hPlatform : platform ∈ platforms)
    (h : (urlPattern platform).accepts text = true) : ∀ c ∈ text, c ≠ '"' := by
  have hHead : noQuote "https://".toList = true := by decide
  have hTails : platforms.all (fun platform => noQuote (urlPattern platform).tail) = true := by decide
  have hTail := List.all_eq_true.mp hTails platform hPlatform
  exact Pattern.all_of_accepts (noQuote_iff.mp hHead) (fun run hRun => noQuote_iff.mp hRun)
    (noQuote_iff.mp hTail) h

theorem ne_nil_of_accepts {platform text : Text} (h : (urlPattern platform).accepts text = true) :
    text ≠ [] := by
  obtain ⟨run, hText, _⟩ := Pattern.accepts_iff.mp h
  have hHead : (urlPattern platform).head ≠ [] := List.cons_ne_nil _ _
  rw [hText, List.append_assoc]
  exact List.append_ne_nil_of_left_ne_nil hHead _

/-- In a quoted argument that matches as a whole nothing else is found. -/
theorem mem_scan_quoted {platform value front : Text} (hPlatform : platform ∈ platforms)
    (hColon : ':' ∉ front) (hAccepts : (urlPattern platform).accepts value = true) :
    value ∈ (urlPattern platform).scan 0 (front ++ ['"'] ++ (value ++ "\")".toList)) := by
  rw [Pattern.scan_append_of_none]
  · apply Pattern.mem_scan_of_matchAt
    · exact ne_nil_of_accepts hAccepts
    · apply Pattern.matchAt_append hAccepts
      intro n hn
      rw [Bool.eq_false_iff]
      intro hLonger
      have hTake : (value ++ "\")".toList).take n = value ++ ("\")".toList).take (n - value.length) := by
        rw [List.take_append, List.take_of_length_le (by omega)]
      obtain ⟨m, hm⟩ : ∃ m, n - value.length = m + 1 := ⟨n - value.length - 1, by omega⟩
      have hQuote : '"' ∈ (value ++ "\")".toList).take n := by
        rw [hTake, hm]
        exact List.mem_append_right _ List.mem_cons_self
      exact noQuote_of_accepts hPlatform hLonger '"' hQuote rfl
  · intro r hNonempty hSuffix
    exact Pattern.matchAt_eq_none_of_head (https_not_head hColon hNonempty hSuffix)

theorem colon_not_mem_word (word : Word) : ':' ∉ word.text := by
  intro hMem
  have hChar := List.all_eq_true.mp word.chars ':' hMem
  exact absurd hChar (by decide)

theorem mem_grep_of_set {file : PinFile} {platform : Text} {name : Name} {gap : Gap} {value : Value}
    (hPlatform : platform ∈ platforms) (hMem : Item.set name gap value ∈ file.items)
    (hAccepts : (urlPattern platform).accepts value.source = true) :
    value.source ∈ grep (urlPattern platform) file.lines := by
  have hLine : ∀ line ∈ (Item.set name gap value).lines, line ∈ file.lines := fun line hLine =>
    List.mem_flatMap.mpr ⟨_, hMem, hLine⟩
  cases gap with
  | sameLine =>
    have hFront : ':' ∉ "set(".toList ++ name.text ++ " ".toList := by
      simp only [List.mem_append, not_or]
      exact ⟨⟨by decide, colon_not_mem_word name.toWord⟩, by decide⟩
    refine List.mem_flatMap.mpr ⟨_, hLine _ List.mem_cons_self, ?_⟩
    have hScan := mem_scan_quoted hPlatform hFront hAccepts
    rw [List.append_assoc ("set(".toList ++ name.text)] at hScan
    exact hScan
  | nextLine =>
    have hFront : ':' ∉ "  ".toList := by decide
    exact List.mem_flatMap.mpr ⟨_, hLine _ (List.mem_cons_of_mem _ List.mem_cons_self),
      mem_scan_quoted hPlatform hFront hAccepts⟩

/-! ## When the two readings agree -/

/-- The row that CMake uses for a platform. A row written out in full is a tarball URL of the
platform from end to end; a row with references, or one that the file leaves to its includer, has
the scraped URL as its value. -/
inductive RowIsScraped (vars : Text → Option Text) (file : PinFile) (platform : Text) : Prop where
  | literal {above : List Item} {value : Value} (plain : value.Literal)
      (last : lastSet (urlVariable "logging".toList platform) file.items = some (above, value))
      (url : (urlPattern platform).accepts value.source = true)
  | expanded {above : List Item} {value : Value} (referring : ¬ value.Literal)
      (last : lastSet (urlVariable "logging".toList platform) file.items = some (above, value))
      (url : scrapeUrl platform file.lines =
        some (value.expand (evalItems ⟨vars, false⟩ above).vars))
  | inherited (unset : lastSet (urlVariable "logging".toList platform) file.items = none)
      {value : Text} (given : vars (urlVariable "logging".toList platform) = some value)
      (url : scrapeUrl platform file.lines = some value)

theorem scrapeUrl_of_grep {platform url : Text} {pin : List Text}
    (h : grep (urlPattern platform) pin = [url]) : scrapeUrl platform pin = some url := by
  rw [scrapeUrl, h, List.head?_cons]

theorem rowIsScraped_iff {vars : Text → Option Text} {file : PinFile} {platform url : Text}
    (hPlatform : platform ∈ platforms) (hFound : grep (urlPattern platform) file.lines = [url]) :
    RowIsScraped vars file platform ↔
      (evalItems ⟨vars, false⟩ file.items).vars (urlVariable "logging".toList platform) = some url := by
  have hScraped := scrapeUrl_of_grep hFound
  constructor
  · intro hRow
    cases hRow with
    | literal plain last whole =>
      obtain ⟨name, gap, hMem⟩ := mem_of_lastSet last
      have hGrep := mem_grep_of_set hPlatform hMem whole
      rw [hFound, List.mem_singleton] at hGrep
      rw [vars_of_lastSet_some last, Value.expand_of_literal plain, hGrep]
    | expanded referring last whole =>
      rw [vars_of_lastSet_some last, ← whole, hScraped]
    | inherited unset given whole =>
      rw [vars_of_lastSet_none unset]
      rw [hScraped] at whole
      exact given.trans whole.symm
  · intro hRow
    cases hLast : lastSet (urlVariable "logging".toList platform) file.items with
    | none =>
      rw [vars_of_lastSet_none hLast] at hRow
      exact .inherited hLast hRow hScraped
    | some found =>
      have hValue := (vars_of_lastSet_some hLast _).symm.trans hRow
      by_cases hPlain : Value.Literal found.2
      · refine .literal hPlain hLast ?_
        rw [Value.expand_of_literal hPlain] at hValue
        rw [Option.some.inj hValue]
        exact accepts_of_mem_grep (hFound ▸ List.mem_singleton_self url)
      · exact .expanded hPlain hLast (hScraped.trans hValue.symm)

/-- On a file that the script accepts, CI verifies what the build fetches exactly when the row of
each platform is the URL that the scrape finds. -/
theorem verified_is_fetched_iff {manifest pyproject : List Text} {report : Report}
    (vars : Text → Option Text) (file : PinFile)
    (h : checkPinRows file.lines manifest pyproject = .ok report) :
    VerifiesFetched vars file ↔ ∀ platform ∈ platforms, RowIsScraped vars file platform := by
  constructor
  · intro hVerifies platform hPlatform
    obtain ⟨found, hFound⟩ := exists_url_of_checkPinRows h hPlatform
    obtain ⟨url, sha, hFetched, hScraped⟩ := hVerifies platform hPlatform
    rw [scrapeUrl_of_grep hFound] at hScraped
    rw [rowIsScraped_iff hPlatform hFound, hScraped]
    exact ((etRuntimeDistUrl_eq_ok_iff (distUrl_of_file file _)).mp hFetched).1
  · intro hRows platform hPlatform
    obtain ⟨found, hFound⟩ := exists_url_of_checkPinRows h hPlatform
    have hRow := (rowIsScraped_iff hPlatform hFound).mp (hRows platform hPlatform)
    exact ⟨found, _, (etRuntimeDistUrl_eq_ok_iff (distUrl_of_file file _)).mpr ⟨hRow, rfl⟩,
      scrapeUrl_of_grep hFound⟩

def row (name : Name) (value : String) : Item := .set name .nextLine (Value.plain value.toList)

def releasedRows : List Item :=
  [.set ⟨⟨"ET_RUNTIME_VERSION".toList, by decide⟩, by decide⟩ .sameLine (Value.plain "1".toList),
    row ⟨⟨"ET_RUNTIME_URL_logging_linux-aarch64".toList, by decide⟩, by decide⟩
      "https://h/download/v1/logging-linux-aarch64.tar.gz",
    row ⟨⟨"ET_RUNTIME_URL_logging_windows-x86_64".toList, by decide⟩, by decide⟩
      "https://h/download/v1/logging-windows-x86_64.tar.gz",
    .distUrlFunction,
    .set ⟨⟨"ET_RUNTIME_OPENVINO_VERSION".toList, by decide⟩, by decide⟩ .sameLine (Value.plain "2".toList)]

/-- A release in which the row of linux-x86_64 is what the items say. -/
def release (linux : List Item) : PinFile where
  items := releasedRows ++ linux
  selector := ⟨releasedRows.take 3, releasedRows.drop 4 ++ linux, rfl⟩

def writtenOut : Item := row linuxRow "https://h/download/v1/logging-linux-x86_64.tar.gz"

def overridden : List Item := [writtenOut, row linuxRow "https://mirror/runtime.tar.gz"]

def commentedOut : List Item :=
  [.comment ⟨" https://h/download/v1/logging-linux-x86_64.tar.gz".toList, by decide, by decide⟩]

def openvinoManifest : List Text := ["openvino_version=2".toList]

def openvinoRequirement : List Text := ["openvino==2".toList]

def acceptedReport : Report where
  version := "1".toList
  urls := ["https://h/download/v1/logging-linux-x86_64.tar.gz".toList,
    "https://h/download/v1/logging-linux-aarch64.tar.gz".toList,
    "https://h/download/v1/logging-windows-x86_64.tar.gz".toList]
  openvino := "2".toList

theorem releases_accepted :
    checkPinRows (release [writtenOut]).lines openvinoManifest openvinoRequirement =
        .ok acceptedReport ∧
      checkPinRows (release overridden).lines openvinoManifest openvinoRequirement =
        .ok acceptedReport ∧
      checkPinRows (release commentedOut).lines openvinoManifest openvinoRequirement =
        .ok acceptedReport := by
  decide +kernel

theorem verified_is_fetched_iff_writtenOut :
    VerifiesFetched (fun _ => none) (release [writtenOut]) ↔
      ∀ platform ∈ platforms, RowIsScraped (fun _ => none) (release [writtenOut]) platform :=
  verified_is_fetched_iff _ _ releases_accepted.1

theorem overridden_fetches_mirror :
    etRuntimeDistUrl (evalItems ⟨fun _ => none, false⟩ (release overridden).items) "logging".toList
      "linux-x86_64".toList = .ok ("https://mirror/runtime.tar.gz".toList, []) := by
  decide +kernel

theorem mirror_not_accepted : ¬ (urlPattern "linux-x86_64".toList).accepts
    "https://mirror/runtime.tar.gz".toList = true := by
  decide +kernel

theorem commentedOut_aborts :
    etRuntimeDistUrl (evalItems ⟨fun _ => none, false⟩ (release commentedOut).items) "logging".toList
      "linux-x86_64".toList = .error (.noArtifact "logging".toList "linux-x86_64".toList) := by
  decide +kernel

/-- The script accepts a file whose row is overridden further down, where the build fetches from the
mirror, and one whose row is commented out, where the build has nothing to fetch. -/
theorem accepted_but_not_fetched :
    (checkPinRows (release overridden).lines openvinoManifest openvinoRequirement =
        .ok acceptedReport ∧ ¬ VerifiesFetched (fun _ => none) (release overridden)) ∧
      checkPinRows (release commentedOut).lines openvinoManifest openvinoRequirement =
        .ok acceptedReport ∧ ¬ VerifiesFetched (fun _ => none) (release commentedOut) := by
  have hLinux : "linux-x86_64".toList ∈ platforms := List.mem_cons_self
  refine ⟨⟨releases_accepted.2.1, ?_⟩, releases_accepted.2.2, ?_⟩
  · intro h
    obtain ⟨url, sha, hFetched, hScraped⟩ := h _ hLinux
    rw [overridden_fetches_mirror] at hFetched
    cases hFetched
    have hMatch := accepts_of_mem_grep (List.mem_of_head? hScraped)
    exact absurd hMatch mirror_not_accepted
  · intro h
    obtain ⟨url, sha, hFetched, _⟩ := h _ hLinux
    rw [commentedOut_aborts] at hFetched
    cases hFetched

end PinRows

end ExecutorchNumpy
