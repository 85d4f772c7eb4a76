import ExecutorchNumpy.Openvino

/-! # The load-time check against the run-time guard

Python decides at load whether the OpenVINO set-up is usable, the core decides
again at every call. The two are compared on the environment that the load
leaves behind.
-/

namespace ExecutorchNumpy
set_option autoImplicit false

open Executorch (Module TensorInfo)
open Traverse

/-! ## Programs as lists of methods -/

/-- The loaded program has these methods, each lowered or not to the OpenVINO delegate. -/
structure Presents {σ : Type} (M : Module σ) (s : σ) (methods : List (ByteString × Bool)) : Prop where
  names : (M.methodNames s).1 = .ok (methods.map Prod.fst)
  metadata : ∀ m ∈ methods, ∃ mm, (M.methodMeta m.1 s).1 = .ok mm ∧ mm.usesBackend openvinoBackend = m.2

def Lowered (methods : List (ByteString × Bool)) : Prop := ∃ m ∈ methods, m.2 = true

def Readable (methods : List (ByteString × Bool)) : Prop := ∀ m ∈ methods, Utf8Text.Valid m.1

theorem usesOutcome_of_presents {σ : Type} {M : Module σ} {s : σ} {methods : List (ByteString × Bool)}
    (h : Presents M s methods) {m : ByteString × Bool} (hm : m ∈ methods) :
    usesOutcome m.1 openvinoBackend (M.methodMeta m.1 s).1 = .ok m.2 := by
  obtain ⟨mm, hMeta, hUses⟩ := h.metadata m hm
  have hName : Utf8Text.cString openvinoBackend = openvinoBackend := by decide
  rw [hMeta, usesOutcome, checked, hName, hUses]

theorem guardOpenvino_of_presents {σ : Type} {M : Module σ} (host : Host) (env : Env)
    {s : RuntimeState σ} {methods : List (ByteString × Bool)} (h : Presents M s.module methods)
    {m : ByteString × Bool} (hm : m ∈ methods) :
    ((guardOpenvino M host env m.1).runOn s).1 = .ok () ↔
      (m.2 = true → checkOpenvino host env = .ok ()) := by
  rw [guardOpenvino_runOn, usesOutcome_of_presents h hm]
  cases m.2 <;> simp [guardOutcome]

/-- The guard passes for the whole program when nothing is lowered or the set-up is usable. -/
theorem guard_passes_iff {σ : Type} {M : Module σ} (host : Host) (env : Env) {s : RuntimeState σ}
    {methods : List (ByteString × Bool)} (h : Presents M s.module methods) :
    (∀ m ∈ methods, ((guardOpenvino M host env m.1).runOn s).1 = .ok ()) ↔
      (Lowered methods → checkOpenvino host env = .ok ()) := by
  constructor
  · rintro hAll ⟨m, hm, hLowered⟩
    exact (guardOpenvino_of_presents host env h hm).mp (hAll m hm) hLowered
  · intro hCheck m hm
    rw [guardOpenvino_of_presents host env h hm]
    exact fun hLowered => hCheck ⟨m, hm, hLowered⟩

/-! ## What the load finds -/

section Load

variable {σ : Type} {M : Module σ} {same : σ → σ → Prop} (hReads : M.MetadataReads same)
include hReads

theorem Presents.of_same {s s' : σ} {methods : List (ByteString × Bool)}
    (h : Presents M s methods) (hSame : same s' s) : Presents M s' methods where
  names := by rw [hReads.methodNames_congr hSame, h.names]
  metadata m hm := by
    rw [hReads.methodMeta_congr m.1 hSame]
    exact h.metadata m hm

/-- The loop over the names stops at the first lowered method; it answers like the whole list. -/
theorem anyUsesBackend_of_presents {methods rest : List (ByteString × Bool)} {texts : List PyStr}
    {s : RuntimeState σ} (h : Presents M s.module methods) (hRest : ∀ m ∈ rest, m ∈ methods)
    (hTexts : List.Forall₂ (fun m text => decodeUtf8 m.1 = some text) rest texts) :
    ∃ s', anyUsesBackend M texts s = (.ok (rest.any Prod.snd), s') ∧ same s'.module s.module := by
  induction hTexts generalizing s with
  | nil => exact ⟨s, rfl, hReads.equivalence.refl _⟩
  | @cons m text rest texts hText _ ih =>
    obtain ⟨arg, hArg, hBytes⟩ := encodeUtf8_of_decodes hText
    have hRead : Bound.methodUsesBackend M arg backendArg s =
        (.ok m.2, ⟨(M.methodMeta m.1 s.module).2, false⟩) := by
      have hUses := usesOutcome_of_presents h (hRest m List.mem_cons_self)
      change Prod.map toPyResult id ((methodUsesBackend M arg.val openvinoBackend).runOn s) = _
      rw [hBytes, methodUsesBackend_runOn, hUses]
      rfl
    have hSame : same (M.methodMeta m.1 s.module).2 s.module := hReads.methodMeta_same m.1 s.module
    rw [anyUsesBackend, hArg]
    simp only [hRead, List.any_cons]
    cases hLowered : m.2 with
    | true => exact ⟨_, rfl, hSame⟩
    | false =>
      obtain ⟨s', hs', hSame'⟩ := ih (s := ⟨(M.methodMeta m.1 s.module).2, false⟩)
        (h.of_same hReads hSame) fun m' hm' => hRest m' (List.mem_cons_of_mem m hm')
      exact ⟨s', hs', hReads.equivalence.trans hSame' hSame⟩

theorem usesOpenvino_readable {methods : List (ByteString × Bool)} {s : RuntimeState σ}
    (h : Presents M s.module methods) (hReadable : Readable methods) :
    ∃ s', usesOpenvino M s = (.ok (methods.any Prod.snd), s') ∧ same s'.module s.module := by
  obtain ⟨texts, hTexts, hEach⟩ := castStrings_of_valid (methods.map Prod.fst)
    (List.forall_mem_map.mpr hReadable)
  have hNames : Bound.methodNames M s = (.ok texts, ⟨(M.methodNames s.module).2, false⟩) := by
    rw [Bound.methodNames, methodNames_runOn, h.names, ← hTexts]
    rfl
  have hSame := hReads.methodNames_same s.module
  obtain ⟨s', hAny, hSame'⟩ := anyUsesBackend_of_presents hReads
    (s := ⟨(M.methodNames s.module).2, false⟩) (h.of_same hReads hSame) (fun _ hm => hm)
    (List.forall₂_map_left_iff.mp hEach)
  refine ⟨s', ?_, hReads.equivalence.trans hSame' hSame⟩
  rw [usesOpenvino, hNames]
  exact hAny

theorem usesOpenvino_unreadable {methods : List (ByteString × Bool)} {s : RuntimeState σ}
    (h : Presents M s.module methods) (hReadable : ¬ Readable methods) :
    ∃ e s', usesOpenvino M s = (.error e, s') ∧ same s'.module s.module := by
  obtain ⟨bytes, _, _, hError⟩ := castStrings_of_invalid (methods.map Prod.fst)
    fun hAll => hReadable (List.forall_mem_map.mp hAll)
  have hNames : Bound.methodNames M s =
      (.error (.unicodeDecodeError bytes), ⟨(M.methodNames s.module).2, false⟩) := by
    rw [Bound.methodNames, methodNames_runOn, h.names, ← hError]
    rfl
  exact ⟨_, _, by rw [usesOpenvino, hNames], hReads.methodNames_same s.module⟩

end Load

/-! ## What the load decides -/

section Decision

variable (interp : Interpreter) (host : Host)

/-- The installed package offers this library: the first match, if it can be put in the environment. -/
def Interpreter.OffersLib (lib : EnvValue) : Prop :=
  ∃ location more first rest, interp.findSpec = some (some (location :: more)) ∧
    libraryMatches interp location = first :: rest ∧ interp.fsencode first = some lib.val

theorem osPathIsfile_fsdecode (lib : EnvValue) :
    osPathIsfile interp host (interp.fsdecode lib.val) = host.isRegular lib.val := by
  rw [osPathIsfile, interp.fsencode_fsdecode]
  exact if_neg lib.property

theorem setEnviron_eq_ok_iff (path : PyStr) (lib : EnvValue) :
    setEnviron interp path = .ok lib ↔ interp.fsencode path = some lib.val := by
  rw [setEnviron]
  cases hEncode : interp.fsencode path with
  | none => simp
  | some bytes =>
    by_cases hNul : (0 : UInt8) ∈ bytes
    · have hNe : bytes ≠ lib.val := fun hEq => lib.property (hEq ▸ hNul)
      simp [hNul, hNe]
    · simp [hNul, Subtype.ext_iff]

theorem wheelLibPath_eq_ok_iff (path : PyStr) :
    wheelLibPath interp = .ok path ↔ ∃ location more rest,
      interp.findSpec = some (some (location :: more)) ∧
        libraryMatches interp location = path :: rest := by
  rw [wheelLibPath]
  rcases hSpec : interp.findSpec with _ | _ | _ | ⟨location, more⟩
  · simp
  · simp
  · simp
  · cases hMatches : libraryMatches interp location with
    | nil => simp [hMatches]
    | cons first rest => simp [hMatches]

theorem resolveLibPath_unset (env' : Env) :
    resolveLibPath interp host none = .ok env' ↔ ∃ lib, interp.OffersLib lib ∧ env' = some lib := by
  rw [resolveLibPath]
  cases hWheel : wheelLibPath interp with
  | error e =>
    refine iff_of_false (by simp) ?_
    rintro ⟨lib, ⟨location, more, first, rest, hSpec, hMatches, _⟩, _⟩
    have hOk := (wheelLibPath_eq_ok_iff interp first).mpr ⟨location, more, rest, hSpec, hMatches⟩
    rw [hWheel] at hOk
    cases hOk
  | ok path =>
    obtain ⟨location, more, rest, hSpec, hMatches⟩ := (wheelLibPath_eq_ok_iff interp path).mp hWheel
    have hOffers : ∀ lib, interp.OffersLib lib ↔ setEnviron interp path = .ok lib := by
      intro lib
      rw [setEnviron_eq_ok_iff]
      constructor
      · rintro ⟨location', more', first, rest', hSpec', hMatches', hEncode⟩
        rw [hSpec] at hSpec'
        cases hSpec'
        rw [hMatches] at hMatches'
        cases hMatches'
        exact hEncode
      · intro hEncode
        exact ⟨location, more, path, rest, hSpec, hMatches, hEncode⟩
    simp only [hOffers]
    cases setEnviron interp path with
    | error e => simp
    | ok lib => simp [eq_comm]

theorem resolveLibPath_set (lib : EnvValue) (env' : Env) :
    resolveLibPath interp host (some lib) = .ok env' ↔
      host.isRegular lib.val = true ∧ env' = some lib := by
  rw [resolveLibPath]
  simp only [osPathIsfile_fsdecode]
  cases host.isRegular lib.val <;> simp [eq_comm]

end Decision

/-! ## Program.__init__ on a presented program -/

theorem any_lowered {methods : List (ByteString × Bool)} :
    methods.any Prod.snd = true ↔ Lowered methods := by
  simp [Lowered]

section Init

variable {σ : Type} {M : Module σ} {same : σ → σ → Prop} (hReads : M.MetadataReads same)
  (interp : Interpreter) (host : Host) (env : Env) {s : RuntimeState σ}
  {methods : List (ByteString × Bool)} (h : Presents M s.module methods)
include hReads h

theorem init_unreadable (hReadable : ¬ Readable methods) :
    ∃ e s', Program.init interp host M s env = (.error e, s', env) ∧ same s'.module s.module := by
  obtain ⟨e, s', hUses, hSame⟩ := usesOpenvino_unreadable hReads h hReadable
  exact ⟨e, s', by rw [Program.init, ensureOpenvinoLibPath, hUses], hSame⟩

theorem init_plain (hReadable : Readable methods) (hLowered : ¬ Lowered methods) :
    ∃ s', Program.init interp host M s env = (.ok (), s', env) ∧ same s'.module s.module := by
  obtain ⟨s', hUses, hSame⟩ := usesOpenvino_readable hReads h hReadable
  rw [Bool.eq_false_iff.mpr (any_lowered.not.mpr hLowered)] at hUses
  exact ⟨s', by rw [Program.init, ensureOpenvinoLibPath, hUses], hSame⟩

theorem init_lowered (hReadable : Readable methods) (hLowered : Lowered methods) :
    ∃ s', same s'.module s.module ∧ Program.init interp host M s env =
      match resolveLibPath interp host env with
      | .error e => (.error e, s', env)
      | .ok env' => (.ok (), s', env') := by
  obtain ⟨s', hUses, hSame⟩ := usesOpenvino_readable hReads h hReadable
  rw [any_lowered.mpr hLowered] at hUses
  refine ⟨s', hSame, ?_⟩
  cases hLib : resolveLibPath interp host env with
  | error e => simp only [Program.init, ensureOpenvinoLibPath, hUses, hLib]
  | ok env' => simp only [Program.init, ensureOpenvinoLibPath, hUses, hLib]

end Init

/-! ## Agreement -/

/-- `Program.__init__` returns normally exactly when, in what it leaves behind, the guard passes for
every method. -/
def ChecksAgree {σ : Type} (M : Module σ) (interp : Interpreter) (host : Host) (env : Env)
    (s : RuntimeState σ) (methods : List (ByteString × Bool)) : Prop :=
  let (result, s', env') := Program.init interp host M s env
  result = .ok () ↔ ∀ m ∈ methods, ((guardOpenvino M host env' m.1).runOn s').1 = .ok ()

def AgreementCondition (interp : Interpreter) (host : Host) (env : Env)
    (methods : List (ByteString × Bool)) : Prop :=
  ¬ Lowered methods ∧ Readable methods ∨
  Lowered methods ∧
    match env with
    | some lib => host.isRegular lib.val = true →
        (backendAvailable host openvinoBackend = true ↔ Readable methods)
    | none => Readable methods → ∀ lib, interp.OffersLib lib →
        backendAvailable host openvinoBackend = true ∧ host.isRegular lib.val = true

theorem checkOpenvino_posix {host : Host} (hPosix : host.win32 = false) (env : Env) :
    checkOpenvino host env = .ok () ↔ backendAvailable host openvinoBackend = true ∧
      ∃ lib, env = some lib ∧ host.isRegular lib.val = true := by
  rw [checkOpenvino_eq_ok_iff]
  constructor
  · rintro ⟨hBackend, lib, hEnv, _, hWin | hRegular⟩
    · rw [hPosix] at hWin
      cases hWin
    · exact ⟨hBackend, lib, hEnv, hRegular⟩
  · rintro ⟨hBackend, lib, hEnv, hRegular⟩
    exact ⟨hBackend, lib, hEnv, Host.ne_nil_of_isRegular hRegular, Or.inr hRegular⟩

theorem resolve_unset_decides {interp : Interpreter} {host : Host} (hPosix : host.win32 = false) :
    (match resolveLibPath interp host none with
      | .error _ => ¬ checkOpenvino host none = .ok ()
      | .ok env' => checkOpenvino host env' = .ok ()) ↔
    ∀ lib, interp.OffersLib lib →
      backendAvailable host openvinoBackend = true ∧ host.isRegular lib.val = true := by
  cases hResolve : resolveLibPath interp host none with
  | error e =>
    refine iff_of_true ?_ fun lib hOffers => ?_
    · dsimp only
      rw [checkOpenvino_posix hPosix]
      rintro ⟨_, lib, hLib, _⟩
      cases hLib
    · have hOk := (resolveLibPath_unset interp host (some lib)).mpr ⟨lib, hOffers, rfl⟩
      rw [hResolve] at hOk
      cases hOk
  | ok env' =>
    obtain ⟨lib, hOffers, rfl⟩ := (resolveLibPath_unset interp host env').mp hResolve
    dsimp only
    rw [checkOpenvino_posix hPosix]
    constructor
    · rintro ⟨hBackend, lib', hLib, hRegular⟩ other hOther
      -- the package offers one library only
      have hSameLib := (resolveLibPath_unset interp host (some other)).mpr ⟨other, hOther, rfl⟩
      rw [hResolve] at hSameLib
      cases hSameLib
      cases hLib
      exact ⟨hBackend, hRegular⟩
    · intro hAll
      exact ⟨(hAll lib hOffers).1, lib, rfl, (hAll lib hOffers).2⟩

theorem resolve_set_decides {interp : Interpreter} {host : Host} (hPosix : host.win32 = false)
    (lib : EnvValue) :
    (match resolveLibPath interp host (some lib) with
      | .error _ => ¬ checkOpenvino host (some lib) = .ok ()
      | .ok env' => checkOpenvino host env' = .ok ()) ↔
    (host.isRegular lib.val = true → backendAvailable host openvinoBackend = true) := by
  cases hResolve : resolveLibPath interp host (some lib) with
  | error e =>
    have hNot : ¬ host.isRegular lib.val = true := by
      intro hRegular
      have hOk := (resolveLibPath_set interp host lib (some lib)).mpr ⟨hRegular, rfl⟩
      rw [hResolve] at hOk
      cases hOk
    refine iff_of_true ?_ fun hRegular => absurd hRegular hNot
    dsimp only
    rw [checkOpenvino_posix hPosix]
    rintro ⟨_, lib', hLib, hRegular⟩
    cases hLib
    exact hNot hRegular
  | ok env' =>
    obtain ⟨hRegular, rfl⟩ := (resolveLibPath_set interp host lib env').mp hResolve
    dsimp only
    rw [checkOpenvino_posix hPosix]
    constructor
    · exact fun hBoth _ => hBoth.1
    · exact fun hBackend => ⟨hBackend hRegular, lib, rfl, hRegular⟩

/-- For a readable program with a lowered method the comparison is one of decisions on the
environment. -/
theorem checksAgree_lowered {σ : Type} {M : Module σ} {same : σ → σ → Prop}
    (hReads : M.MetadataReads same) (interp : Interpreter) (host : Host) (env : Env)
    {s : RuntimeState σ} {methods : List (ByteString × Bool)} (h : Presents M s.module methods)
    (hReadable : Readable methods) (hLowered : Lowered methods) :
    ChecksAgree M interp host env s methods ↔
      match resolveLibPath interp host env with
      | .error _ => ¬ checkOpenvino host env = .ok ()
      | .ok env' => checkOpenvino host env' = .ok () := by
  obtain ⟨s', hSame, hInit⟩ := init_lowered hReads interp host env h hReadable hLowered
  have hGuard := fun env' => guard_passes_iff host env' (h.of_same hReads hSame)
  rw [ChecksAgree, hInit]
  cases resolveLibPath interp host env with
  | error e => simp only [hGuard, hLowered, forall_true_left, reduceCtorEq, false_iff]
  | ok env' => simp only [hGuard, hLowered, forall_true_left, true_iff]

/-- The two checks accept the same programs exactly under the agreement condition. -/
theorem checks_agree_iff {σ : Type} (M : Module σ) (same : σ → σ → Prop)
    (hReads : M.MetadataReads same) (interp : Interpreter) (host : Host) (hPosix : host.win32 = false)
    (env : Env) (s : RuntimeState σ) (methods : List (ByteString × Bool))
    (h : Presents M s.module methods) :
    ChecksAgree M interp host env s methods ↔ AgreementCondition interp host env methods := by
  by_cases hReadable : Readable methods
  · by_cases hLowered : Lowered methods
    · rw [checksAgree_lowered hReads interp host env h hReadable hLowered]
      unfold AgreementCondition
      cases env with
      | none => simp [resolve_unset_decides hPosix, hReadable, hLowered]
      | some lib => simp [resolve_set_decides hPosix, hReadable, hLowered]
    · obtain ⟨s', hInit, hSame⟩ := init_plain hReads interp host env h hReadable hLowered
      have hGuard := guard_passes_iff host env (h.of_same hReads hSame)
      rw [ChecksAgree, hInit]
      unfold AgreementCondition
      simp only [hGuard, hLowered, hReadable]
      simp
  · obtain ⟨e, s', hInit, hSame⟩ := init_unreadable hReads interp host env h hReadable
    have hGuard := guard_passes_iff host env (h.of_same hReads hSame)
    rw [ChecksAgree, hInit]
    unfold AgreementCondition
    simp only [hGuard, hReadable, checkOpenvino_posix hPosix]
    by_cases hLowered : Lowered methods
    · cases env <;> simp [hLowered]
    · simp [hLowered]

/-! ## The two readings apart -/

def tableModule (methods : List (ByteString × Bool)) : Module Unit where
  loadPath _ := .ok ()
  loadBuffer _ := .ok ()
  methodNames s := (.ok (methods.map Prod.fst), s)
  methodMeta name s :=
    (match methods.find? fun m => m.1 == name with
      | none => .error 18
      | some m => .ok ⟨[], [], fun backend => m.2 && backend == openvinoBackend⟩, s)
  execute _ _ s := (.ok [], s)
  memory _ _ := 0

theorem tableModule_metadataReads (methods : List (ByteString × Bool)) :
    (tableModule methods).MetadataReads (fun _ _ => True) where
  equivalence := ⟨fun _ => trivial, fun _ => trivial, fun _ _ => trivial⟩
  methodNames_same _ := trivial
  methodMeta_same _ _ := trivial
  methodNames_congr _ := rfl
  methodMeta_congr _ _ _ _ := rfl
  execute_congr _ _ _ _ _ := ⟨rfl, trivial, rfl⟩
  methodNames_execute _ _ _ := rfl
  methodMeta_execute _ _ _ _ := rfl

def openvinoTiny : List (ByteString × Bool) := [(cxx "forward", true)]

theorem openvinoTiny_presented : Presents (tableModule openvinoTiny) () openvinoTiny where
  names := rfl
  metadata := by
    intro m hm
    simp only [openvinoTiny, List.mem_singleton] at hm
    subst hm
    exact ⟨_, rfl, rfl⟩

/-- The interpreter of a POSIX system, for ASCII file names, without the package. -/
def bareInterpreter : Interpreter where
  fsencode text := some (text.map UInt8.ofNat)
  fsdecode bytes := bytes.map UInt8.toNat
  fsencode_fsdecode bytes := by simp [Function.comp_def]
  repr text := py "'" ++ text ++ py "'"
  findSpec := none
  glob _ := []

def libValue : EnvValue := ⟨cxx "/opt/libopenvino_c.so", by decide⟩

theorem openvinoTiny_agreement :
    ChecksAgree (tableModule openvinoTiny) bareInterpreter
      ⟨false, [openvinoBackend], fun _ => some .regular⟩ (some libValue) ⟨(), false⟩ openvinoTiny := by
  apply (checks_agree_iff (tableModule openvinoTiny) (fun _ _ => True)
    (tableModule_metadataReads openvinoTiny) bareInterpreter
    ⟨false, [openvinoBackend], fun _ => some .regular⟩ rfl (some libValue) ⟨(), false⟩ openvinoTiny
    openvinoTiny_presented).mpr
  refine Or.inr ⟨⟨_, List.mem_singleton_self _, rfl⟩, fun _ => iff_of_true rfl ?_⟩
  intro m hm
  obtain rfl : m = (cxx "forward", true) := List.mem_singleton.mp hm
  exact valid_cxx _

/-- A build without the delegate accepts the program at load and refuses its method at run. -/
theorem unregistered_backend_accepted_at_load :
    (Program.init bareInterpreter ⟨false, [], fun _ => some .regular⟩ (tableModule openvinoTiny)
      ⟨(), false⟩ (some libValue)) = (.ok (), ⟨(), false⟩, some libValue) ∧
    ((guardOpenvino (tableModule openvinoTiny) ⟨false, [], fun _ => some .regular⟩ (some libValue)
      (cxx "forward")).runOn ⟨(), false⟩).1 = .error backendNotProvided ∧
    ¬ ChecksAgree (tableModule openvinoTiny) bareInterpreter ⟨false, [], fun _ => some .regular⟩
      (some libValue) ⟨(), false⟩ openvinoTiny := by
  have hInit : Program.init bareInterpreter ⟨false, [], fun _ => some .regular⟩
      (tableModule openvinoTiny) ⟨(), false⟩ (some libValue) =
        (.ok (), ⟨(), false⟩, some libValue) := rfl
  have hGuard : ((guardOpenvino (tableModule openvinoTiny) ⟨false, [], fun _ => some .regular⟩
      (some libValue) (cxx "forward")).runOn ⟨(), false⟩).1 = .error backendNotProvided := rfl
  refine ⟨hInit, hGuard, fun hAgree => ?_⟩
  rw [ChecksAgree, hInit] at hAgree
  have hPasses := hAgree.mp rfl (cxx "forward", true) (List.mem_singleton_self _)
  rw [hGuard] at hPasses
  cases hPasses

end ExecutorchNumpy
