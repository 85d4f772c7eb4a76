import Mathlib.Data.List.Nodup
import Mathlib.Data.Prod.Basic
import ExecutorchNumpy.Library.Separators
import ExecutorchNumpy.PinFile

/-! # The pin file as a table of releases

A release writes one row for each tarball and one for each OpenVINO bundle. What
the selector functions answer after an `include` is looked up in that table.
-/

namespace ExecutorchNumpy
set_option autoImplicit false

open CmakeValues (Text)

namespace PinFile

/-- `et_runtime_openvino_url(platform url sha)`: the two values it sets for its caller. -/
def etRuntimeOpenvinoUrl (scope : Scope) (platform : Text) : Text × Text :=
  match scope.vars ("ET_RUNTIME_OPENVINO_URL_".toList ++ platform) with
  | some url => (url, (scope.vars ("ET_RUNTIME_OPENVINO_SHA256_".toList ++ platform)).getD [])
  | none => ([], [])

/-! ## Files that set each variable once -/

def Item.written : Item → Option Text
  | .set name _ _ => some name.text
  | _ => none

def writtenNames (items : List Item) : List Text := items.filterMap Item.written

theorem writtenNames_append (above below : List Item) :
    writtenNames (above ++ below) = writtenNames above ++ writtenNames below :=
  List.filterMap_append

theorem valueFor_eq_none_of_written {var : Text} {item : Item} (h : item.written ≠ some var) :
    item.valueFor var = none := by
  cases item with
  | set name gap value =>
    apply if_neg
    intro hName
    apply h
    rw [Item.written, hName]
  | comment text => rfl
  | blank => rfl
  | distUrlFunction => rfl
  | openvinoUrlFunction => rfl

theorem vars_of_not_written {var : Text} {items : List Item} (h : var ∉ writtenNames items)
    (scope : Scope) : (evalItems scope items).vars var = scope.vars var := by
  induction items generalizing scope with
  | nil => rfl
  | cons item rest ih =>
    have hItem : item.written ≠ some var := fun hWritten =>
      h (List.mem_filterMap.mpr ⟨item, List.mem_cons_self, hWritten⟩)
    have hRest : var ∉ writtenNames rest := by
      intro hMem
      obtain ⟨later, hLater, hWritten⟩ := List.mem_filterMap.mp hMem
      exact h (List.mem_filterMap.mpr ⟨later, List.mem_cons_of_mem item hLater, hWritten⟩)
    exact (ih hRest (evalItem scope item)).trans
      (vars_evalItem_of_none (valueFor_eq_none_of_written hItem) scope)

/-- The one `set()` of a variable decides, with what was visible above it. -/
theorem vars_of_split {above below : List Item} {name : Name} {gap : Gap} {value : Value}
    (hOnce : (writtenNames (above ++ .set name gap value :: below)).Nodup) (scope : Scope) :
    (evalItems scope (above ++ .set name gap value :: below)).vars name.text =
      some (value.expand (evalItems scope above).vars) := by
  rw [writtenNames_append] at hOnce
  have hBelow : name.text ∉ writtenNames below :=
    (List.nodup_cons.mp (List.nodup_append.mp hOnce).2.1).1
  rw [evalItems, List.foldl_append, List.foldl_cons]
  exact (vars_of_not_written hBelow _).trans (if_pos rfl)

theorem vars_of_mem {items : List Item} (hOnce : (writtenNames items).Nodup) {name : Name}
    {gap : Gap} {value : Value} (hMem : Item.set name gap value ∈ items) (hPlain : value.Literal)
    (scope : Scope) : (evalItems scope items).vars name.text = some value.source := by
  obtain ⟨above, below, rfl⟩ := List.append_of_mem hMem
  rw [vars_of_split hOnce, Value.expand_of_literal hPlain]

/-- A text that needs no quoting. -/
structure Plain where
  text : Text
  chars : text.all valueChar = true

def Plain.value (plain : Plain) : Value := Value.plain plain.text

theorem Plain.value_literal (plain : Plain) : plain.value.Literal := by
  intro piece hPiece
  obtain ⟨c, _, hc⟩ := List.mem_filterMap.mp hPiece
  split at hc
  · rename_i h
    exact ⟨c, h, (Option.some.inj hc).symm⟩
  · cases hc

theorem source_plain {text : Text} (h : text.all valueChar = true) :
    Value.source (Value.plain text) = text := by
  induction text with
  | nil => rfl
  | cons c text ih =>
    rw [List.all_cons, Bool.and_eq_true] at h
    rw [Value.plain, List.filterMap_cons_some (dif_pos h.1), Value.source, List.flatMap_cons]
    exact congrArg (c :: ·) (ih h.2)

theorem Plain.source_value (plain : Plain) : Value.source plain.value = plain.text :=
  source_plain plain.chars

theorem valueChar_of_nameChar {c : Char} (h : nameChar c = true) : valueChar c = true := by
  have hSpecial : "\"\\$\n\x00".toList.all (fun c => !nameChar c) = true := by decide
  rw [valueChar, decide_eq_true_eq]
  intro hMem
  have hNot := List.all_eq_true.mp hSpecial c hMem
  rw [h] at hNot
  cases hNot

theorem source_plain_word (word : Word) : Value.source (Value.plain word.text) = word.text :=
  source_plain (List.all_eq_true.mpr fun c hc =>
    valueChar_of_nameChar (List.all_eq_true.mp word.chars c hc))

/-! ## The variables of the file -/

inductive Kind where
  | version
  | etVersion
  | url
  | sha256
  | openvinoVersion
  | openvinoPlatform
  | openvinoUrl
  | openvinoSha256
  deriving DecidableEq, Repr

def Kind.head : Kind → Text
  | .version => "ET_RUNTIME_VERSION".toList
  | .etVersion => "ET_RUNTIME_ET_VERSION".toList
  | .url => "ET_RUNTIME_URL_".toList
  | .sha256 => "ET_RUNTIME_SHA256_".toList
  | .openvinoVersion => "ET_RUNTIME_OPENVINO_VERSION".toList
  | .openvinoPlatform => "ET_RUNTIME_OPENVINO_PLATFORM".toList
  | .openvinoUrl => "ET_RUNTIME_OPENVINO_URL".toList
  | .openvinoSha256 => "ET_RUNTIME_OPENVINO_SHA256".toList

theorem Kind.head_chars (kind : Kind) : kind.head.all nameChar = true := by
  cases kind <;> decide

theorem Kind.head_ne_nil (kind : Kind) : kind.head ≠ [] := by
  cases kind <;> decide

theorem Kind.eq_of_prefix {kind other : Kind} (h : kind.head <+: other.head) : kind = other := by
  revert h
  cases kind <;> cases other <;> decide

abbrev Var := Kind × Text

def Var.text (var : Var) : Text := var.1.head ++ var.2

theorem Var.text_injective : Function.Injective Var.text := by
  rintro ⟨kind, key⟩ ⟨other, key'⟩ h
  have hHead : kind.head <+: other.head ++ key' := ⟨key, h⟩
  have hKind : kind = other := by
    obtain hLeft | hRight := List.prefix_or_prefix_of_prefix hHead (List.prefix_append other.head key')
    · exact Kind.eq_of_prefix hLeft
    · exact (Kind.eq_of_prefix hRight).symm
  subst hKind
  exact congrArg (Prod.mk kind) (List.append_cancel_left h)

def Kind.name (kind : Kind) (key : Word) : Name where
  text := Var.text (kind, key.text)
  chars := by
    rw [Var.text, List.all_append, kind.head_chars, key.chars]
    rfl
  nonempty := List.append_ne_nil_of_left_ne_nil kind.head_ne_nil key.text

theorem Word.eq_of_text {word other : Word} (h : word.text = other.text) : word = other := by
  cases word
  cases other
  cases h
  rfl

def noKey : Word := ⟨[], rfl⟩

/-- `_<platform>` -/
def onPlatform (platform : Word) : Word where
  text := '_' :: platform.text
  chars := by
    rw [List.all_cons, platform.chars]
    decide

/-! ## Releases -/

/-- One `variant` never contains the separator of the key. -/
structure Tarball where
  variant : Word
  platform : Word
  url : Plain
  sha256 : Plain
  oneWord : '_' ∉ variant.text

/-- `${variant}_${platform}` -/
def Tarball.key (tarball : Tarball) : Word where
  text := tarball.variant.text ++ "_".toList ++ tarball.platform.text
  chars := by
    rw [List.all_append, List.all_append, tarball.variant.chars, tarball.platform.chars]
    decide

structure Bundle where
  platform : Word
  url : Plain
  sha256 : Plain

/-- A platform whose bundle is that of another one. -/
structure Alias where
  platform : Word
  target : Word

/-- What the generated file of a release says. -/
structure Dist where
  header : List Comment
  version : Plain
  etVersion : Plain
  tarballs : List Tarball
  openvinoVersion : Plain
  bundles : List Bundle
  aliases : List Alias
  openvinoNote : List Comment
  legacyNote : List Comment
  legacy : Bundle
  oneRow : (tarballs.map fun tarball => tarball.key.text).Nodup
  oneBundle : (bundles.map (fun bundle => bundle.platform.text) ++
    aliases.map fun row => row.platform.text).Nodup
  targets : ∀ row ∈ aliases, ∃ bundle ∈ bundles, row.target = bundle.platform

def setting (kind : Kind) (key : Word) (gap : Gap) (value : Value) : Item := .set (kind.name key) gap value

def Tarball.items (tarball : Tarball) : List Item :=
  [setting .url tarball.key .nextLine tarball.url.value,
    setting .sha256 tarball.key .sameLine tarball.sha256.value, .blank]

def Bundle.items (bundle : Bundle) : List Item :=
  [setting .openvinoUrl (onPlatform bundle.platform) .nextLine bundle.url.value,
    setting .openvinoSha256 (onPlatform bundle.platform) .sameLine bundle.sha256.value, .blank]

def Alias.items (row : Alias) : List Item :=
  [setting .openvinoUrl (onPlatform row.platform) .sameLine
      [.ref (Kind.name .openvinoUrl (onPlatform row.target))],
    setting .openvinoSha256 (onPlatform row.platform) .sameLine
      [.ref (Kind.name .openvinoSha256 (onPlatform row.target))]]

namespace Dist

/-- The file down to the rows that refer to others. -/
def front (dist : Dist) : List Item :=
  dist.header.map .comment ++
    [setting .version noKey .sameLine dist.version.value,
      setting .etVersion noKey .sameLine dist.etVersion.value, .blank] ++
    dist.tarballs.flatMap Tarball.items ++
    [.distUrlFunction, .blank,
      setting .openvinoVersion noKey .sameLine dist.openvinoVersion.value] ++
    dist.bundles.flatMap Bundle.items

def back (dist : Dist) : List Item :=
  .blank :: dist.openvinoNote.map .comment ++ [.openvinoUrlFunction, .blank] ++
    dist.legacyNote.map .comment ++
    [setting .openvinoPlatform noKey .sameLine (Value.plain dist.legacy.platform.text),
      setting .openvinoUrl noKey .nextLine dist.legacy.url.value,
      setting .openvinoSha256 noKey .sameLine dist.legacy.sha256.value, .blank]

def items (dist : Dist) : List Item := dist.front ++ dist.aliases.flatMap Alias.items ++ dist.back

def file (dist : Dist) : PinFile where
  items := dist.items
  selector := by
    refine ⟨dist.header.map .comment ++
      [setting .version noKey .sameLine dist.version.value,
        setting .etVersion noKey .sameLine dist.etVersion.value, .blank] ++
      dist.tarballs.flatMap Tarball.items,
      [.blank, setting .openvinoVersion noKey .sameLine dist.openvinoVersion.value] ++
        dist.bundles.flatMap Bundle.items ++ dist.aliases.flatMap Alias.items ++ dist.back, ?_⟩
    simp only [items, front, List.append_assoc, List.cons_append, List.nil_append]

/-- The tarball of a variant and platform. -/
def tarball (dist : Dist) (variant platform : Text) : Option Tarball :=
  dist.tarballs.find? fun row => row.variant.text = variant && row.platform.text = platform

/-- The bundle of a platform, its own or the one it shares. -/
def bundle (dist : Dist) (platform : Text) : Option Bundle :=
  (dist.bundles.find? fun row => row.platform.text = platform).or
    ((dist.aliases.find? fun row => row.platform.text = platform).bind fun shared =>
      dist.bundles.find? fun row => row.platform.text = shared.target.text)

/-! ## Each variable of a release is set once -/

/-- The platforms with rows for a bundle. -/
def platforms (dist : Dist) : List Text :=
  dist.bundles.map (fun bundle => bundle.platform.text) ++ dist.aliases.map fun row => row.platform.text

def setVars (dist : Dist) : List Var :=
  [(.version, []), (.etVersion, [])] ++
    dist.tarballs.flatMap (fun row => [(.url, row.key.text), (.sha256, row.key.text)]) ++
    [(.openvinoVersion, [])] ++
    dist.platforms.flatMap (fun platform => [(.openvinoUrl, '_' :: platform), (.openvinoSha256, '_' :: platform)]) ++
    [(.openvinoPlatform, []), (.openvinoUrl, []), (.openvinoSha256, [])]

theorem writtenNames_comments (notes : List Comment) : writtenNames (notes.map .comment) = [] := by
  rw [writtenNames, List.filterMap_map]
  exact List.filterMap_eq_nil_iff.mpr fun _ _ => rfl

theorem writtenNames_flatMap {α : Type} (rows : List α) (lines : α → List Item) (written : α → List Var)
    (h : ∀ row, writtenNames (lines row) = (written row).map Var.text) :
    writtenNames (rows.flatMap lines) = (rows.flatMap written).map Var.text := by
  induction rows with
  | nil => rfl
  | cons row rows ih =>
    rw [List.flatMap_cons, List.flatMap_cons, writtenNames_append, h, ih, List.map_append]

theorem writtenNames_items (dist : Dist) :
    writtenNames dist.items = dist.setVars.map Var.text := by
  have hTarballs := writtenNames_flatMap dist.tarballs Tarball.items
    (fun row => [(.url, row.key.text), (.sha256, row.key.text)]) fun _ => rfl
  have hBundles := writtenNames_flatMap dist.bundles Bundle.items
    (fun row => [(.openvinoUrl, '_' :: row.platform.text), (.openvinoSha256, '_' :: row.platform.text)])
    fun _ => rfl
  have hAliases := writtenNames_flatMap dist.aliases Alias.items
    (fun row => [(.openvinoUrl, '_' :: row.platform.text), (.openvinoSha256, '_' :: row.platform.text)])
    fun _ => rfl
  have hSetting : ∀ kind gap value rest,
      writtenNames (setting kind noKey gap value :: rest) = Var.text (kind, []) :: writtenNames rest :=
    fun _ _ _ _ => rfl
  have hBlank : ∀ rest, writtenNames (.blank :: rest) = writtenNames rest := fun _ => rfl
  have hDistUrl : ∀ rest, writtenNames (.distUrlFunction :: rest) = writtenNames rest := fun _ => rfl
  have hOpenvinoUrl : ∀ rest, writtenNames (.openvinoUrlFunction :: rest) = writtenNames rest :=
    fun _ => rfl
  have hNil : writtenNames [] = [] := rfl
  simp only [items, front, back, setVars, platforms, writtenNames_append, writtenNames_comments,
    hTarballs, hBundles, hAliases, List.map_append, List.flatMap_append, List.flatMap_map,
    List.nil_append, List.append_assoc, List.cons_append, List.map_cons, List.map_nil,
    hSetting, hBlank, hDistUrl, hOpenvinoUrl, hNil]

theorem nodup_of_kinds {vars : List Var}
    (h : ∀ kind, (vars.filter fun var => var.1 = kind).Nodup) : vars.Nodup := by
  rw [List.nodup_iff_count_le_one]
  rintro ⟨kind, key⟩
  have hCount := List.nodup_iff_count_le_one.mp (h kind) (kind, key)
  rwa [List.count_filter (by simp)] at hCount

theorem nodup_tarballVars (dist : Dist) (kind : Kind) :
    (dist.tarballs.map fun row => ((kind, row.key.text) : Var)).Nodup := by
  have h := dist.oneRow.map (Prod.mk_right_injective kind)
  rwa [List.map_map] at h

theorem nodup_platformVars (dist : Dist) (kind : Kind) :
    (dist.platforms.map fun platform => ((kind, '_' :: platform) : Var)).Nodup := by
  refine List.Nodup.map ?_ dist.oneBundle
  intro platform other h
  exact (List.cons.inj (Prod.mk.inj h).2).2

theorem nodup_setVars (dist : Dist) : dist.setVars.Nodup := by
  apply nodup_of_kinds
  intro kind
  have hNone : ∀ {α : Type} (rows : List α), rows.flatMap (fun _ => ([] : List Var)) = [] :=
    fun rows => List.flatMap_eq_nil_iff.mpr fun _ _ => rfl
  have hOne : ∀ {α : Type} (rows : List α) (var : α → Var), rows.flatMap (fun row => [var row]) = rows.map var :=
    fun rows var => List.flatMap_pure_eq_map var rows
  have hRow := nodup_tarballVars dist kind
  have hPlatform := nodup_platformVars dist kind
  have hLegacy : ((kind, []) : Var) ∉ dist.platforms.map fun platform => (kind, '_' :: platform) := by
    simp
  cases kind <;>
    simp only [setVars, List.filter_append, List.filter_flatMap, List.filter_cons, List.filter_nil,
      decide_true, decide_false, if_true, Bool.false_eq_true, if_false, hNone, hOne, List.append_nil,
      List.nil_append, reduceCtorEq]
  case url => exact hRow
  case sha256 => exact hRow
  case openvinoUrl => exact List.nodup_append_comm.mp (List.nodup_cons.mpr ⟨hLegacy, hPlatform⟩)
  case openvinoSha256 => exact List.nodup_append_comm.mp (List.nodup_cons.mpr ⟨hLegacy, hPlatform⟩)
  all_goals exact List.nodup_singleton _

theorem written_once (dist : Dist) : (writtenNames dist.items).Nodup := by
  rw [writtenNames_items]
  exact (nodup_setVars dist).map Var.text_injective

theorem not_written {dist : Dist} {var : Var} (h : var ∉ dist.setVars) :
    var.text ∉ writtenNames dist.items := by
  rw [writtenNames_items]
  intro hMem
  obtain ⟨other, hOther, hText⟩ := List.mem_map.mp hMem
  exact h (Var.text_injective hText ▸ hOther)

/-! ## Looking up the table -/

theorem mem_front_of_tarball {dist : Dist} {row : Tarball} (hRow : row ∈ dist.tarballs) {item : Item}
    (hItem : item ∈ row.items) : item ∈ dist.front := by
  have hMem : item ∈ dist.tarballs.flatMap Tarball.items := List.mem_flatMap.mpr ⟨row, hRow, hItem⟩
  simp only [front, List.mem_append]
  exact Or.inl (Or.inl (Or.inr hMem))

theorem mem_front_of_bundle {dist : Dist} {row : Bundle} (hRow : row ∈ dist.bundles) {item : Item}
    (hItem : item ∈ row.items) : item ∈ dist.front := by
  have hMem : item ∈ dist.bundles.flatMap Bundle.items := List.mem_flatMap.mpr ⟨row, hRow, hItem⟩
  simp only [front, List.mem_append]
  exact Or.inr hMem

theorem mem_items_of_front {dist : Dist} {item : Item} (h : item ∈ dist.front) : item ∈ dist.items := by
  rw [items, List.append_assoc]
  exact List.mem_append_left _ h

variable {dist : Dist} {vars : Text → Option Text} {defined : Bool}

theorem vars_of_setting {kind : Kind} {key : Word} {gap : Gap} {value : Plain}
    (h : setting kind key gap value.value ∈ dist.front) :
    (evalItems ⟨vars, defined⟩ dist.items).vars (Var.text (kind, key.text)) = some value.text := by
  have hValue := vars_of_mem (written_once dist) (mem_items_of_front h) value.value_literal
    ⟨vars, defined⟩
  rwa [value.source_value] at hValue

theorem vars_of_unset {var : Var} (h : var ∉ dist.setVars) :
    (evalItems ⟨vars, defined⟩ dist.items).vars var.text = vars var.text :=
  vars_of_not_written (not_written h) ⟨vars, defined⟩

theorem mem_setVars_url {key : Text} :
    ((.url, key) : Var) ∈ dist.setVars ↔ ∃ row ∈ dist.tarballs, row.key.text = key := by
  simp [setVars, eq_comm]

theorem mem_setVars_sha256 {key : Text} :
    ((.sha256, key) : Var) ∈ dist.setVars ↔ ∃ row ∈ dist.tarballs, row.key.text = key := by
  simp [setVars, eq_comm]

theorem mem_setVars_openvinoUrl {platform : Text} :
    ((.openvinoUrl, '_' :: platform) : Var) ∈ dist.setVars ↔ platform ∈ dist.platforms := by
  simp [setVars, eq_comm]

theorem mem_setVars_openvinoSha256 {platform : Text} :
    ((.openvinoSha256, '_' :: platform) : Var) ∈ dist.setVars ↔ platform ∈ dist.platforms := by
  simp [setVars, eq_comm]

theorem key_eq_iff {row : Tarball} {variant platform : Text} (hVariant : '_' ∉ variant) :
    row.key.text = variant ++ "_".toList ++ platform ↔
      row.variant.text = variant ∧ row.platform.text = platform := by
  have hKey : row.key.text = row.variant.text ++ '_' :: row.platform.text := List.append_assoc _ _ _
  have hAsked : variant ++ "_".toList ++ platform = variant ++ '_' :: platform := List.append_assoc _ _ _
  rw [hKey, hAsked]
  constructor
  · exact Separators.append_cons_inj_left row.oneWord hVariant
  · rintro ⟨rfl, rfl⟩
    rfl

/-- A row of the table is what the selector returns, and without one it sees what its includer set. -/
theorem etRuntimeDistUrl_items {variant : Text} (hVariant : '_' ∉ variant) (platform : Text) :
    etRuntimeDistUrl (evalItems ⟨vars, defined⟩ dist.items) variant platform =
      (dist.tarball variant platform).elim (etRuntimeDistUrl ⟨vars, true⟩ variant platform)
        fun row => .ok (row.url.text, row.sha256.text) := by
  have hDefined : (evalItems ⟨vars, defined⟩ dist.items).distUrl = true := distUrl_of_file dist.file _
  cases hRow : dist.tarball variant platform with
  | some row =>
    have hMem : row ∈ dist.tarballs := List.mem_of_find?_eq_some hRow
    have hAsked := List.find?_some hRow
    rw [Bool.and_eq_true, decide_eq_true_eq, decide_eq_true_eq, ← key_eq_iff hVariant] at hAsked
    have hUrl : (evalItems ⟨vars, defined⟩ dist.items).vars (urlVariable variant platform) =
        some row.url.text := by
      have hSet := @vars_of_setting dist vars defined .url row.key .nextLine row.url
        (mem_front_of_tarball hMem List.mem_cons_self)
      rwa [hAsked] at hSet
    have hSha : (evalItems ⟨vars, defined⟩ dist.items).vars (sha256Variable variant platform) =
        some row.sha256.text := by
      have hSet := @vars_of_setting dist vars defined .sha256 row.key .sameLine row.sha256
        (mem_front_of_tarball hMem (List.mem_cons_of_mem _ List.mem_cons_self))
      rwa [hAsked] at hSet
    rw [Option.elim_some, etRuntimeDistUrl_eq_ok_iff hDefined, hSha]
    exact ⟨hUrl, rfl⟩
  | none =>
    have hUnset : ¬ ∃ row ∈ dist.tarballs, row.key.text = variant ++ "_".toList ++ platform := by
      rintro ⟨row, hMem, hKey⟩
      have hAsked := (key_eq_iff hVariant).mp hKey
      have hNot := List.find?_eq_none.mp hRow row hMem
      simp [hAsked] at hNot
    have hUrl : (evalItems ⟨vars, defined⟩ dist.items).vars (urlVariable variant platform) =
        vars (urlVariable variant platform) :=
      vars_of_unset (fun hMem => hUnset (mem_setVars_url.mp hMem))
    have hSha : (evalItems ⟨vars, defined⟩ dist.items).vars (sha256Variable variant platform) =
        vars (sha256Variable variant platform) :=
      vars_of_unset (fun hMem => hUnset (mem_setVars_sha256.mp hMem))
    rw [Option.elim_none, etRuntimeDistUrl, etRuntimeDistUrl, if_pos hDefined, hUrl, hSha]
    rfl

/-- A reference upwards has the value of the row that it names. -/
theorem vars_of_reference {above below : List Item} {kind : Kind} {key target : Word} {gap : Gap}
    {value : Plain}
    (hItems : dist.items = above ++ setting kind key .sameLine [.ref (kind.name target)] :: below)
    (hTarget : setting kind target gap value.value ∈ above) :
    (evalItems ⟨vars, defined⟩ dist.items).vars (Var.text (kind, key.text)) = some value.text := by
  have hOnce := written_once dist
  rw [hItems] at hOnce ⊢
  have hAbove : (writtenNames above).Nodup := by
    rw [writtenNames_append] at hOnce
    exact (List.nodup_append.mp hOnce).1
  have hNamed := vars_of_mem hAbove hTarget value.value_literal ⟨vars, defined⟩
  rw [value.source_value] at hNamed
  have hValue := vars_of_split hOnce ⟨vars, defined⟩
  rw [Value.expand, List.flatMap_singleton, Piece.expand, hNamed] at hValue
  exact hValue

theorem vars_of_alias {row : Alias} {bundle : Bundle} (hRow : row ∈ dist.aliases)
    (hBundle : bundle ∈ dist.bundles) (hTarget : bundle.platform.text = row.target.text) :
    (evalItems ⟨vars, defined⟩ dist.items).vars (Var.text (.openvinoUrl, '_' :: row.platform.text)) =
        some bundle.url.text ∧
      (evalItems ⟨vars, defined⟩ dist.items).vars (Var.text (.openvinoSha256, '_' :: row.platform.text)) =
        some bundle.sha256.text := by
  obtain ⟨before, after, hRows⟩ := List.append_of_mem hRow
  have hPlatform : bundle.platform = row.target := Word.eq_of_text hTarget
  have hUrl : setting .openvinoUrl (onPlatform row.target) .nextLine bundle.url.value ∈ dist.front :=
    hPlatform ▸ mem_front_of_bundle hBundle List.mem_cons_self
  have hSha : setting .openvinoSha256 (onPlatform row.target) .sameLine bundle.sha256.value ∈ dist.front :=
    hPlatform ▸ mem_front_of_bundle hBundle (List.mem_cons_of_mem _ List.mem_cons_self)
  have hUrlItems : dist.items = (dist.front ++ before.flatMap Alias.items) ++
      setting .openvinoUrl (onPlatform row.platform) .sameLine
        [.ref (Kind.name .openvinoUrl (onPlatform row.target))] ::
      (setting .openvinoSha256 (onPlatform row.platform) .sameLine
        [.ref (Kind.name .openvinoSha256 (onPlatform row.target))] ::
        (after.flatMap Alias.items ++ dist.back)) := by
    simp only [items, hRows, List.flatMap_append, List.flatMap_cons, Alias.items, List.append_assoc,
      List.cons_append, List.nil_append]
  have hShaItems : dist.items = (dist.front ++ before.flatMap Alias.items ++
        [setting .openvinoUrl (onPlatform row.platform) .sameLine
          [.ref (Kind.name .openvinoUrl (onPlatform row.target))]]) ++
      setting .openvinoSha256 (onPlatform row.platform) .sameLine
        [.ref (Kind.name .openvinoSha256 (onPlatform row.target))] ::
      (after.flatMap Alias.items ++ dist.back) := by
    rw [hUrlItems, List.append_assoc _ [_], List.singleton_append]
  constructor
  · exact vars_of_reference hUrlItems (List.mem_append_left _ hUrl)
  · exact vars_of_reference hShaItems (List.mem_append_left _ (List.mem_append_left _ hSha))

theorem openvinoUrl_text (platform : Text) :
    "ET_RUNTIME_OPENVINO_URL_".toList ++ platform = Var.text (.openvinoUrl, '_' :: platform) := by
  have hHead : "ET_RUNTIME_OPENVINO_URL_".toList = Kind.openvinoUrl.head ++ ['_'] := by decide
  rw [hHead, List.append_assoc]
  rfl

theorem openvinoSha256_text (platform : Text) :
    "ET_RUNTIME_OPENVINO_SHA256_".toList ++ platform = Var.text (.openvinoSha256, '_' :: platform) := by
  have hHead : "ET_RUNTIME_OPENVINO_SHA256_".toList = Kind.openvinoSha256.head ++ ['_'] := by decide
  rw [hHead, List.append_assoc]
  rfl

theorem etRuntimeOpenvinoUrl_of_vars {scope : Scope} {platform url sha256 : Text}
    (hUrl : scope.vars (Var.text (.openvinoUrl, '_' :: platform)) = some url)
    (hSha : scope.vars (Var.text (.openvinoSha256, '_' :: platform)) = some sha256) :
    etRuntimeOpenvinoUrl scope platform = (url, sha256) := by
  rw [etRuntimeOpenvinoUrl, openvinoUrl_text, openvinoSha256_text, hUrl, hSha]
  rfl

/-- A platform gets its own bundle or the one it shares, and without a row what the includer set. -/
theorem etRuntimeOpenvinoUrl_items (platform : Text) :
    etRuntimeOpenvinoUrl (evalItems ⟨vars, defined⟩ dist.items) platform =
      (dist.bundle platform).elim (etRuntimeOpenvinoUrl ⟨vars, true⟩ platform)
        fun row => (row.url.text, row.sha256.text) := by
  rw [bundle]
  cases hOwn : dist.bundles.find? fun row => row.platform.text = platform with
  | some row =>
    have hMem : row ∈ dist.bundles := List.mem_of_find?_eq_some hOwn
    have hPlatform : row.platform.text = platform := by simpa using List.find?_some hOwn
    subst hPlatform
    rw [Option.some_or, Option.elim_some]
    have hUrl := @vars_of_setting dist vars defined .openvinoUrl (onPlatform row.platform) .nextLine
      row.url (mem_front_of_bundle hMem List.mem_cons_self)
    have hSha := @vars_of_setting dist vars defined .openvinoSha256 (onPlatform row.platform) .sameLine
      row.sha256 (mem_front_of_bundle hMem (List.mem_cons_of_mem _ List.mem_cons_self))
    exact etRuntimeOpenvinoUrl_of_vars hUrl hSha
  | none =>
    rw [Option.none_or]
    cases hShared : dist.aliases.find? fun row => row.platform.text = platform with
    | some shared =>
      have hMem : shared ∈ dist.aliases := List.mem_of_find?_eq_some hShared
      have hPlatform : shared.platform.text = platform := by simpa using List.find?_some hShared
      subst hPlatform
      obtain ⟨target, hTarget, hName⟩ := dist.targets shared hMem
      rw [Option.bind_some]
      cases hFound : dist.bundles.find? fun row => row.platform.text = shared.target.text with
      | none =>
        have hNot := List.find?_eq_none.mp hFound target hTarget
        rw [hName] at hNot
        simp at hNot
      | some row =>
        have hSame : row.platform.text = shared.target.text := by simpa using List.find?_some hFound
        obtain ⟨hUrl, hSha⟩ := @vars_of_alias dist vars defined shared row hMem
          (List.mem_of_find?_eq_some hFound) hSame
        exact etRuntimeOpenvinoUrl_of_vars hUrl hSha
    | none =>
      have hUnset : platform ∉ dist.platforms := by
        intro hMem
        obtain hBundles | hAliases := List.mem_append.mp hMem
        · obtain ⟨row, hRow, hPlatform⟩ := List.mem_map.mp hBundles
          have hNot := List.find?_eq_none.mp hOwn row hRow
          simp [hPlatform] at hNot
        · obtain ⟨row, hRow, hPlatform⟩ := List.mem_map.mp hAliases
          have hNot := List.find?_eq_none.mp hShared row hRow
          simp [hPlatform] at hNot
      have hUrl := @vars_of_unset dist vars defined _ (mt mem_setVars_openvinoUrl.mp hUnset)
      have hSha := @vars_of_unset dist vars defined _ (mt mem_setVars_openvinoSha256.mp hUnset)
      rw [Option.bind_none, Option.elim_none, etRuntimeOpenvinoUrl, etRuntimeOpenvinoUrl,
        openvinoUrl_text, openvinoSha256_text, hUrl, hSha]

/-- After an `include` both selectors answer from the table of the release. A key that the release has
no row for is answered as it would have been without the file. -/
theorem include_reads_as_table (dist : Dist) (vars : Text → Option Text) (defined : Bool) :
    (∀ variant platform, '_' ∉ variant →
      etRuntimeDistUrl (evalItems ⟨vars, defined⟩ dist.items) variant platform =
        (dist.tarball variant platform).elim (etRuntimeDistUrl ⟨vars, true⟩ variant platform)
          fun row => .ok (row.url.text, row.sha256.text)) ∧
      ∀ platform, etRuntimeOpenvinoUrl (evalItems ⟨vars, defined⟩ dist.items) platform =
        (dist.bundle platform).elim (etRuntimeOpenvinoUrl ⟨vars, true⟩ platform)
          fun row => (row.url.text, row.sha256.text) :=
  ⟨fun _ platform hVariant => etRuntimeDistUrl_items hVariant platform, etRuntimeOpenvinoUrl_items⟩

end Dist

def loggingRow (platform : Word) (url : Plain) : Tarball where
  variant := ⟨"logging".toList, by decide⟩
  platform := platform
  url := url
  sha256 := ⟨"ab".toList, by decide⟩
  oneWord := by decide

def windowsBundle : Bundle where
  platform := ⟨"windows-x86_64".toList, by decide⟩
  url := ⟨"https://h/openvino-windows-x86_64.tar.gz".toList, by decide⟩
  sha256 := ⟨"cd".toList, by decide⟩

/-- A release with the tarballs of the project, one bundle and a platform that shares it. -/
def smallDist : Dist where
  header := [⟨" Do not edit by hand.".toList, by decide, by decide⟩]
  version := ⟨"1".toList, by decide⟩
  etVersion := ⟨"1".toList, by decide⟩
  tarballs :=
    [loggingRow ⟨"linux-aarch64".toList, by decide⟩
        ⟨"https://h/download/v1/logging-linux-aarch64.tar.gz".toList, by decide⟩,
      loggingRow ⟨"linux-x86_64".toList, by decide⟩
        ⟨"https://h/download/v1/logging-linux-x86_64.tar.gz".toList, by decide⟩,
      loggingRow ⟨"windows-x86_64".toList, by decide⟩
        ⟨"https://h/download/v1/logging-windows-x86_64.tar.gz".toList, by decide⟩]
  openvinoVersion := ⟨"2".toList, by decide⟩
  bundles := [windowsBundle]
  aliases := [⟨⟨"windows-x86_64-static".toList, by decide⟩, windowsBundle.platform⟩]
  openvinoNote := []
  legacyNote := []
  legacy := windowsBundle
  oneRow := by decide +kernel
  oneBundle := by decide +kernel
  targets := by
    intro row hRow
    rw [List.mem_singleton.mp hRow]
    exact ⟨_, List.mem_cons_self, rfl⟩

theorem smallDist_reads :
    etRuntimeDistUrl (evalItems ⟨fun _ => none, false⟩ smallDist.items) "logging".toList
        "linux-x86_64".toList =
        .ok ("https://h/download/v1/logging-linux-x86_64.tar.gz".toList, "ab".toList) ∧
      etRuntimeOpenvinoUrl (evalItems ⟨fun _ => none, false⟩ smallDist.items)
        "windows-x86_64-static".toList =
        ("https://h/openvino-windows-x86_64.tar.gz".toList, "cd".toList) := by
  obtain ⟨hDist, hOpenvino⟩ := Dist.include_reads_as_table smallDist (fun _ => none) false
  refine ⟨(hDist _ _ (by decide)).trans ?_, (hOpenvino _).trans ?_⟩
  · decide +kernel
  · decide +kernel

end PinFile

end ExecutorchNumpy
