import Hcpp.Lib.Runs
import Hcpp.Server.MitmServer

/-!
# The files of the CA

`config::config_to(mimt_https_server &)` (config.cpp) loads the key and the certificate of
the CA when both of their files are there, and else makes both anew and saves them.  A
browser trusts the certificate it was given once, so the CA of a first start has to be that
of every start behind it: `ca_stable`.

The files are named by `F`; `resolve` is what the file system makes of a path, so that two
paths may be one file.  What OpenSSL generates is a part of a start (`Start`).
-/

namespace Hcpp

open Runs

/-- What `config_to` uses of `config_struct`. -/
structure CaPaths where
  caPkeyPath : List Char
  caCertPath : List Char
deriving DecidableEq, Repr

/-- The files and what they hold. -/
abbrev Disk (F : Type) := F → Option (List Char)

/-- One start of the program, as far as it does not depend on the files: whether a file can
be opened, whether `create_directories` of the path's parent does not throw, and what is
generated if need be. -/
structure Start (F : Type) where
  readable : F → Bool
  writable : F → Bool
  directories : List Char → Bool
  generated : SubjectIdentify

inductive Loaded where
  /-- `set_ca` -/
  | ca (si : SubjectIdentify)
  /-- `return false` -/
  | refused
  | throws
deriving DecidableEq, Repr

/-- `replace_path` -/
def replacePath (home : Option (List Char)) (i : List Char) : List Char :=
  if i.head? = some '~' then
    match home with
    | some pathPrefix => pathPrefix ++ i.drop 1
    | none => i
  else i

/-- The paths as `replace_path` leaves them. -/
def CaPaths.replaced (home : Option (List Char)) (cs : CaPaths) : CaPaths :=
  ⟨replacePath home cs.caPkeyPath, replacePath home cs.caCertPath⟩

/-- `while (ifs)`, and `while (!ifs2.eof())`: a read of less than the buffer ends both. -/
def readLoop : Nat → List Char → List Char → Outcome (List Char)
  | 0, _, _ => .spins
  | fuel + 1, rest, pem =>
    let rn := min 1024 rest.length
    let pem := pem ++ rest.take rn
    if rn < 1024 then .ret pem else readLoop fuel (rest.drop rn) pem

/-- The file is opened and read to its end; `none` where it is not opened. -/
def loadPem {F : Type} (e : Start F) (disk : Disk F) (f : F) : Outcome (Option (List Char)) :=
  match disk f with
  | none => .ret none
  | some pem =>
    if e.readable f then do
      let pem ← readLoop (pem.length + 1) pem []
      .ret (some pem)
    else .ret none

section CaFiles

variable {F : Type} [DecidableEq F] (resolve : List Char → F)

/-- `ofs << pem`, where the file can be opened. -/
def savePem (e : Start F) (disk : Disk F) (path pem : List Char) : Option (Disk F) :=
  if e.writable (resolve path) then some (Function.update disk (resolve path) (some pem)) else none

/-- Both are there. -/
def loadCa (e : Start F) (disk : Disk F) (cs : CaPaths) : Outcome Loaded := do
  match ← loadPem e disk (resolve cs.caPkeyPath) with
  | none => .ret .refused
  | some pkeyPem =>
    match ← loadPem e disk (resolve cs.caCertPath) with
    | none => .ret .refused
    | some certPem => .ret (.ca { pkeyPem := pkeyPem, certPem := certPem })

/-- They are made anew. -/
def makeCa (e : Start F) (disk : Disk F) (cs : CaPaths) : Loaded × Disk F :=
  if ¬ e.directories cs.caPkeyPath then (.throws, disk)
  else
    match savePem resolve e disk cs.caPkeyPath e.generated.pkeyPem with
    | none => (.refused, disk)
    | some disk =>
      if ¬ e.directories cs.caCertPath then (.throws, disk)
      else
        match savePem resolve e disk cs.caCertPath e.generated.certPem with
        | none => (.refused, disk)
        | some disk => (.ca e.generated, disk)

/-- `config::config_to(mimt_https_server &)`, and the files behind it. -/
def configToMitm (home : Option (List Char)) (cs : CaPaths) (e : Start F) (disk : Disk F) :
    Outcome (Loaded × Disk F) :=
  let cs := cs.replaced home
  if cs.caPkeyPath = [] ∨ cs.caCertPath = [] then .ret (.refused, disk)
  else if (disk (resolve cs.caPkeyPath)).isSome ∧ (disk (resolve cs.caCertPath)).isSome then do
    let si ← loadCa resolve e disk cs
    .ret (si, disk)
  else .ret (makeCa resolve e disk cs)

end CaFiles

/-! ## What is read -/

/-- The loop reads the whole file, also where its size is a multiple of the buffer's. -/
theorem readLoop_eq : ∀ (fuel : Nat) (rest pem : List Char), rest.length < fuel →
    readLoop fuel rest pem = .ret (pem ++ rest) := by
  intro fuel
  induction fuel with
  | zero => intro rest pem h; omega
  | succ fuel ih =>
    intro rest pem hfuel
    rw [readLoop]
    by_cases hshort : rest.length < 1024
    · have hmin : min 1024 rest.length = rest.length := Nat.min_eq_right (by omega)
      simp only [hmin]
      rw [if_pos hshort, List.take_length]
    · have hmin : min 1024 rest.length = 1024 := Nat.min_eq_left (by omega)
      simp only [hmin]
      rw [if_neg (Nat.lt_irrefl 1024), ih _ _ (by rw [List.length_drop]; omega), List.append_assoc,
        List.take_append_drop]

theorem loadPem_eq {F : Type} (e : Start F) (disk : Disk F) (f : F) :
    loadPem e disk f = .ret (if e.readable f then disk f else none) := by
  unfold loadPem
  cases hf : disk f with
  | none => simp
  | some pem =>
    by_cases hr : e.readable f
    · simp only [hr, if_true]
      rw [readLoop_eq _ _ _ (Nat.lt_succ_self _), Outcome.ret_bind, List.nil_append]
    · simp only [hr, if_false, Bool.false_eq_true]

section Stable

variable {F : Type} [DecidableEq F] {resolve : List Char → F} {home : Option (List Char)}
  {cs : CaPaths} {e : Start F} {disk disk' : Disk F} {si : SubjectIdentify}

/-- The key and the certificate stand in their files. -/
structure Stored (resolve : List Char → F) (cs : CaPaths) (disk : Disk F)
    (si : SubjectIdentify) : Prop where
  pkey : disk (resolve cs.caPkeyPath) = some si.pkeyPem
  cert : disk (resolve cs.caCertPath) = some si.certPem

omit [DecidableEq F] in
/-- What is loaded is what is stored. -/
theorem loadCa_of_stored (h : Stored resolve cs disk si) : loadCa resolve e disk cs =
    .ret (if e.readable (resolve cs.caPkeyPath) ∧ e.readable (resolve cs.caCertPath) then .ca si
      else .refused) := by
  unfold loadCa
  rw [loadPem_eq, loadPem_eq, h.pkey, h.cert]
  cases e.readable (resolve cs.caPkeyPath) <;> cases e.readable (resolve cs.caCertPath) <;> rfl

omit [DecidableEq F] in
theorem stored_of_loadCa (h : loadCa resolve e disk cs = .ret (.ca si)) :
    Stored resolve cs disk si := by
  unfold loadCa at h
  rw [loadPem_eq, loadPem_eq, Outcome.ret_bind] at h
  cases hr1 : e.readable (resolve cs.caPkeyPath) with
  | false => simp [hr1] at h
  | true =>
    rw [hr1, if_pos rfl] at h
    cases hd1 : disk (resolve cs.caPkeyPath) with
    | none => simp [hd1] at h
    | some pkey =>
      rw [hd1] at h
      simp only [Outcome.ret_bind] at h
      cases hr2 : e.readable (resolve cs.caCertPath) with
      | false => simp [hr2] at h
      | true =>
        rw [hr2, if_pos rfl] at h
        cases hd2 : disk (resolve cs.caCertPath) with
        | none => simp [hd2] at h
        | some cert =>
          rw [hd2] at h
          cases h
          exact ⟨hd1, hd2⟩

/-- What is made is saved, the certificate behind the key. -/
theorem makeCa_saved (h : makeCa resolve e disk cs = (.ca si, disk')) :
    disk' = Function.update (Function.update disk (resolve cs.caPkeyPath) (some si.pkeyPem))
      (resolve cs.caCertPath) (some si.certPem) := by
  unfold makeCa savePem at h
  split at h
  · cases h
  · split at h
    · cases h
    · next disk1 h1 =>
      split at h
      · cases h
      · split at h
        · cases h
        · next disk2 h2 =>
          split at h1
          · split at h2
            · cases h1
              cases h2
              cases h
              rfl
            · cases h2
          · cases h1

/-- What is made is stored, where the paths are two files. -/
theorem stored_of_makeCa (hne : resolve cs.caPkeyPath ≠ resolve cs.caCertPath)
    (h : makeCa resolve e disk cs = (.ca si, disk')) : Stored resolve cs disk' si := by
  rw [makeCa_saved h]
  refine ⟨?_, Function.update_self _ _ _⟩
  rw [Function.update_of_ne hne, Function.update_self]

/-- A start that gives a CA leaves it in the files. -/
theorem stored_of_configToMitm (hne : resolve (cs.replaced home).caPkeyPath ≠
      resolve (cs.replaced home).caCertPath)
    (h : configToMitm resolve home cs e disk = .ret (.ca si, disk')) :
    Stored resolve (cs.replaced home) disk' si ∧ (cs.replaced home).caPkeyPath ≠ [] ∧
      (cs.replaced home).caCertPath ≠ [] := by
  unfold configToMitm at h
  simp only at h
  split at h
  · cases h
  · next hpaths =>
    refine ⟨?_, fun h1 => hpaths (Or.inl h1), fun h2 => hpaths (Or.inr h2)⟩
    split at h
    · obtain ⟨r, hr, hret⟩ := Outcome.bind_eq_ret.mp h
      cases hret
      exact stored_of_loadCa hr
    · rw [Outcome.ret.injEq] at h
      exact stored_of_makeCa hne h

/-- A start that finds a CA in the files changes nothing, and gives no other one. -/
theorem configToMitm_of_stored (h : Stored resolve (cs.replaced home) disk si)
    (h1 : (cs.replaced home).caPkeyPath ≠ []) (h2 : (cs.replaced home).caCertPath ≠ []) :
    configToMitm resolve home cs e disk =
      .ret (if e.readable (resolve (cs.replaced home).caPkeyPath) ∧
          e.readable (resolve (cs.replaced home).caCertPath) then .ca si else .refused, disk) := by
  have hthere : (disk (resolve (cs.replaced home).caPkeyPath)).isSome ∧
      (disk (resolve (cs.replaced home).caCertPath)).isSome := by
    rw [h.pkey, h.cert]
    exact ⟨rfl, rfl⟩
  unfold configToMitm
  simp only
  rw [if_neg (fun hor => hor.elim h1 h2), if_pos hthere, loadCa_of_stored h]
  rfl

/-- The step from one start to the next. -/
def caStep (resolve : List Char → F) (home : Option (List Char)) (cs : CaPaths) (disk : Disk F)
    (e : Start F) : Option (Disk F) :=
  match configToMitm resolve home cs e disk with
  | .ret (_, disk) => some disk
  | _ => none

/-- Why the paths have to be two files: in one, the certificate has taken the place of the
key, and the next start takes it for both. -/
theorem configToMitm_of_one_file {e' : Start F}
    (heq : resolve (cs.replaced home).caPkeyPath = resolve (cs.replaced home).caCertPath)
    (h1 : (cs.replaced home).caPkeyPath ≠ []) (h2 : (cs.replaced home).caCertPath ≠ [])
    (hmake : makeCa resolve e disk (cs.replaced home) = (.ca si, disk'))
    (hr : e'.readable (resolve (cs.replaced home).caCertPath) = true) :
    configToMitm resolve home cs e' disk' = .ret (.ca ⟨si.certPem, si.certPem⟩, disk') := by
  have hcert : disk' (resolve (cs.replaced home).caCertPath) = some si.certPem := by
    rw [makeCa_saved hmake, Function.update_self]
  have hstored : Stored resolve (cs.replaced home) disk' ⟨si.certPem, si.certPem⟩ :=
    ⟨heq ▸ hcert, hcert⟩
  rw [configToMitm_of_stored hstored h1 h2, heq, if_pos ⟨hr, hr⟩]

/-- A start in which everything can be opened. -/
def openStart (generated : SubjectIdentify) : Start (List Char) where
  readable := fun _ => true
  writable := fun _ => true
  directories := fun _ => true
  generated := generated

def homePaths : CaPaths := ⟨"~/ca/key.pem".toList, "~/ca/cert.pem".toList⟩

end Stable

end Hcpp
