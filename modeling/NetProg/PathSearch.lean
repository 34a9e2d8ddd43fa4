import NetProg.Shell.Model

/-! The two searches of `PATH`: the one of `execvp`, and `checkFileInPATH`, which the shells ask only
    after `execvp` has failed.

    `execvp` wants a file it can load, and goes on to the next directory when there is none or it may
    not be executed. `checkFileInPATH` wants any file, looks up names with a slash as well, and works
    on two arrays of 200 characters. -/

namespace NetProg

/-- What `execve` of a path comes to: the program runs, the file has no format the system knows, it may
    not be executed (a directory, for one), there is none (or no interpreter for it), or anything
    else. -/
inductive Execve where
  | loaded
  | noFormat
  | denied
  | missing
  | failed
  deriving DecidableEq

/-- The files at a moment, by their paths: whether `access` finds one, and what `execve` does. -/
structure Files where
  access : List Char → Bool
  execve : List Char → Execve

/-- The variable both searches read. -/
def Shell.pathVar : Token := ['P', 'A', 'T', 'H']

/-- The program `execvp` gives a file without a format to. -/
def binSh : List Char := ['/', 'b', 'i', 'n', '/', 's', 'h']

/-- A file in a directory. -/
def inDir (dir file : List Char) : List Char := dir ++ '/' :: file

/-- The paths `execvp` tries. An empty directory is the current one. -/
def candidates (path file : List Char) : List (List Char) :=
  if '/' ∈ file then [file]
  else (path.splitOn ':').map fun dir => if dir = [] then file else inDir dir file

/-- Where `execvp` looks when there is no `PATH`. -/
def defaultPath : List Char := ['/', 'b', 'i', 'n', ':', '/', 'u', 's', 'r', '/', 'b', 'i', 'n']

namespace Files

/-- One attempt of `execvp`. -/
def attempt (f : Files) (path : List Char) : Execve :=
  match f.execve path with
  | .noFormat => f.execve binSh
  | r => r

/-- The attempts of `execvp`, up to the one that ends it. -/
def tryAll (f : Files) : List (List Char) → Bool
  | [] => false
  | p :: ps =>
    match f.attempt p with
    | .loaded => true
    | .denied | .missing => f.tryAll ps
    | _ => false

/-- `execvp`: whether the program runs. -/
def execvp (f : Files) (environ : Environ) (file : Token) : Bool :=
  f.tryAll (candidates ((environ Shell.pathVar).getD defaultPath) file)

/-- The loop of `checkFileInPATH`. A path that does not fit `real_path` is written over what follows. -/
def searchDirs (f : Files) (file : Token) : List Token → Option Bool
  | [] => some false
  | dir :: dirs =>
    if (inDir dir file).length < 200 then
      if f.access (inDir dir file) then some true else f.searchDirs file dirs
    else none

/-- `checkFileInPATH`. Without a `PATH` it copies from the null pointer. -/
def checkFileInPATH (f : Files) (environ : Environ) (file : Token) : Option Bool :=
  match environ Shell.pathVar with
  | none => none
  | some path => if path.length < 200 then f.searchDirs file (tokens ':' path) else none

/-- The child goes on behind `execvp`: it exits only if `checkFileInPATH` has found nothing. -/
def goesOn (f : Files) (environ : Environ) (file : Token) : Bool :=
  !f.execvp environ file && f.checkFileInPATH environ file == some true

/-- One of the paths `execvp` tries can be loaded, and there is none before it, or it may not be
    executed. -/
def Loads (f : Files) (environ : Environ) (file : Token) : Prop :=
  ∃ front p back, candidates ((environ Shell.pathVar).getD defaultPath) file = front ++ p :: back ∧
    f.attempt p = .loaded ∧ ∀ q ∈ front, f.attempt q = .denied ∨ f.attempt q = .missing

/-- A directory in `PATH` has a file of that name, and no path up to that one is too long. -/
def Listed (f : Files) (environ : Environ) (file : Token) : Prop :=
  ∃ path, environ Shell.pathVar = some path ∧ path.length < 200 ∧
    ∃ front dir back, tokens ':' path = front ++ dir :: back ∧ f.access (inDir dir file) = true ∧
      ∀ d ∈ front ++ [dir], (inDir d file).length < 200

/-- The program of a command runs, or there is no file of that name in `PATH`. -/
def Settles (f : Files) (environ : Environ) (file : Token) : Prop :=
  f.Loads environ file ∨ ¬ f.Listed environ file

/-! ### What the searches find -/

theorem tryAll_iff (f : Files) : ∀ ps : List (List Char), f.tryAll ps = true ↔
    ∃ front p back, ps = front ++ p :: back ∧ f.attempt p = .loaded ∧
      ∀ q ∈ front, f.attempt q = .denied ∨ f.attempt q = .missing := by
  intro ps
  induction ps with
  | nil => simp [tryAll]
  | cons p ps ih =>
    constructor
    · intro h
      rw [tryAll] at h
      cases hp : f.attempt p with
      | loaded => exact ⟨[], p, ps, rfl, hp, by simp⟩
      | denied | missing =>
        rw [hp] at h
        obtain ⟨front, q, back, rfl, hq, hfront⟩ := ih.mp h
        refine ⟨p :: front, q, back, rfl, hq, fun r hr => ?_⟩
        rcases List.mem_cons.mp hr with rfl | hr
        · simp [hp]
        · exact hfront r hr
      | noFormat | failed => simp [hp] at h
    · rintro ⟨front, q, back, heq, hq, hfront⟩
      cases front with
      | nil =>
        obtain ⟨rfl, rfl⟩ := List.cons.inj heq
        simp [tryAll, hq]
      | cons r front =>
        obtain ⟨rfl, rfl⟩ := List.cons.inj heq
        have hrest : f.tryAll (front ++ q :: back) = true :=
          ih.mpr ⟨front, q, back, rfl, hq, fun x hx => hfront x (List.mem_cons_of_mem _ hx)⟩
        rcases hfront p List.mem_cons_self with hp | hp <;> simp [tryAll, hp, hrest]

theorem searchDirs_iff (f : Files) (file : Token) : ∀ dirs : List Token,
    f.searchDirs file dirs = some true ↔
      ∃ front dir back, dirs = front ++ dir :: back ∧ f.access (inDir dir file) = true ∧
        ∀ d ∈ front ++ [dir], (inDir d file).length < 200 := by
  intro dirs
  induction dirs with
  | nil => simp [searchDirs]
  | cons dir dirs ih =>
    constructor
    · intro h
      rw [searchDirs] at h
      split_ifs at h with hlen hacc
      · exact ⟨[], dir, dirs, rfl, hacc, by simpa using hlen⟩
      · obtain ⟨front, d, back, rfl, hd, hfront⟩ := ih.mp h
        refine ⟨dir :: front, d, back, rfl, hd, fun x hx => ?_⟩
        rcases List.mem_cons.mp hx with rfl | hx
        · exact hlen
        · exact hfront x hx
    · rintro ⟨front, d, back, heq, hd, hfront⟩
      cases front with
      | nil =>
        obtain ⟨rfl, rfl⟩ := List.cons.inj heq
        simp [searchDirs, hd, hfront dir (by simp)]
      | cons r front =>
        obtain ⟨rfl, rfl⟩ := List.cons.inj heq
        have hrest := ih.mpr ⟨front, d, back, rfl, hd, fun x hx => hfront x (List.mem_cons_of_mem _ hx)⟩
        rw [searchDirs, if_pos (hfront dir (by simp)), hrest]
        split <;> rfl

theorem checkFileInPATH_iff (f : Files) (environ : Environ) (file : Token) :
    f.checkFileInPATH environ file = some true ↔ f.Listed environ file := by
  unfold checkFileInPATH Listed
  cases environ Shell.pathVar with
  | none => simp
  | some path =>
    by_cases hlen : path.length < 200
    · simp only [hlen, if_true, searchDirs_iff, Option.some.injEq, exists_eq_left', true_and]
    · simp [hlen]

/-- A child is left as a second shell for a name that is in `PATH` but cannot be loaded. -/
theorem goesOn_iff (f : Files) (environ : Environ) (file : Token) :
    f.goesOn environ file = true ↔ ¬ f.Settles environ file := by
  have hexec : f.execvp environ file = true ↔ f.Loads environ file := f.tryAll_iff _
  rw [goesOn, Bool.and_eq_true, Bool.not_eq_true', beq_iff_eq, checkFileInPATH_iff, Settles, ← hexec,
    ← Bool.not_eq_true]
  tauto

end Files

end NetProg
