import FileStorage.Client.Api
import FileStorage.Helpers.Txtenv

/-! # Which files a command is about

`gnl_opt_rts.c`: the walk through a directory and the list of file names in an
argument. The output, the size of a file that is only printed and the pause between
two requests are left out.
-/

namespace FileStorage

open Program

/-- What `readdir` and `stat` tell about an entry of a directory. -/
inductive DirEntry where
  /-- the entries `.` and `..` -/
  | dots
  /-- a file, with what `realpath` gives for it -/
  | file (realpath : Option CString)
  | directory (entries : List DirEntry)
  /-- a directory that cannot be opened -/
  | unreadable
  /-- an entry for which `stat` fails -/
  | broken

/-- The queue of `scan_dir` and its counter. -/
structure Scan where
  queue : List CString
  count : Nat

namespace DirEntry

mutual

def scanDir (limit : Int) : List DirEntry → Scan → Option Scan
  | [], s => some s
  | entry :: entries, s =>
      if 0 < limit ∧ limit ≤ s.count then some s
      else
        match scanEntry limit entry s with
        | none => none
        | some s => scanDir limit entries s

def scanEntry (limit : Int) : DirEntry → Scan → Option Scan
  | dots, s => some s
  | file realpath, s => realpath.map fun path =>
      { queue := s.queue ++ [path], count := s.count + 1 }
  | directory entries, s => scanDir limit entries s
  | unreadable, _ => none
  | broken, _ => none

end

mutual

/-- The files below a directory, from the first to the last; `none` stands for something
    that cannot be looked at. -/
def files : List DirEntry → List (Option CString)
  | [] => []
  | entry :: entries => entry.filesOf ++ files entries

def filesOf : DirEntry → List (Option CString)
  | dots => []
  | file realpath => [realpath]
  | directory entries => files entries
  | unreadable => [none]
  | broken => [none]

end

/-- The first files of a list, as many as are missing still; all without a limit. -/
def missing {α : Type} (limit : Int) (count : Nat) (list : List α) : List α :=
  if 0 < limit then list.take (limit.toNat - count) else list

/-- The queue when some files have been put into it. -/
def Collects (s : Scan) (files : List (Option CString)) (s' : Scan) : Prop :=
  ∃ paths, files = paths.map some ∧
    s' = { queue := s.queue ++ paths, count := s.count + paths.length }

variable {limit : Int} {s : Scan}

theorem missing_append {α : Type} (first second : List α) (count : Nat) :
    missing limit count (first ++ second) = missing limit count first ++
      missing limit (count + (missing limit count first).length) second := by
  unfold missing
  split
  · rw [List.take_append, List.length_take]
    congr 2
    omega
  · rfl

theorem missing_full {α : Type} {count : Nat} (list : List α)
    (full : 0 < limit ∧ limit ≤ count) : missing limit count list = [] := by
  have none_ : limit.toNat - count = 0 := by omega
  rw [missing, if_pos full.1, none_, List.take_zero]

theorem missing_single {α : Type} {count : Nat} (a : α) (room : ¬ (0 < limit ∧ limit ≤ count)) :
    missing limit count [a] = [a] := by
  unfold missing
  split
  · exact List.take_of_length_le (by rw [List.length_singleton]; omega)
  · rfl

theorem missing_nil {α : Type} {count : Nat} : missing limit count ([] : List α) = [] := by
  unfold missing
  split
  · exact List.take_nil
  · rfl

theorem collects_nil {s' : Scan} : Collects s [] s' ↔ s' = s := by
  constructor
  · rintro ⟨paths, nothing, rfl⟩
    obtain rfl := List.map_eq_nil_iff.mp nothing.symm
    rw [List.append_nil]
    rfl
  · rintro rfl
    exact ⟨[], rfl, by rw [List.append_nil]; rfl⟩

theorem collects_append {first second : List (Option CString)} {s' : Scan} :
    Collects s (missing limit s.count (first ++ second)) s' ↔
      ∃ s₁, Collects s (missing limit s.count first) s₁ ∧
        Collects s₁ (missing limit s₁.count second) s' := by
  rw [missing_append]
  constructor
  · rintro ⟨paths, all, rfl⟩
    obtain ⟨before, after, rfl, first_, second_⟩ := List.map_eq_append_iff.mp all.symm
    refine ⟨_, ⟨before, first_.symm, rfl⟩, after, ?_, ?_⟩
    · rw [second_, ← first_, List.length_map]
    · rw [List.append_assoc, List.length_append, Nat.add_assoc]
  · rintro ⟨_, ⟨before, first_, rfl⟩, after, second_, rfl⟩
    refine ⟨before ++ after, ?_, ?_⟩
    · rw [List.map_append, ← first_, ← second_, first_, List.length_map]
    · rw [List.append_assoc, List.length_append, Nat.add_assoc]

mutual

/-- The walk collects the first files below the directory. -/
theorem scanDir_iff (entries : List DirEntry) (s s' : Scan) :
    scanDir limit entries s = some s' ↔ Collects s (missing limit s.count (files entries)) s' := by
  cases entries with
  | nil => rw [files, missing_nil, collects_nil, scanDir, Option.some.injEq, eq_comm]
  | cons entry entries =>
      rw [scanDir, files]
      split
      · rename_i full
        rw [missing_full _ full, collects_nil, Option.some.injEq, eq_comm]
      · rename_i room
        rw [collects_append]
        constructor
        · intro walked
          split at walked
          · cases walked
          · rename_i s₁ here
            exact ⟨s₁, (scanEntry_iff entry room).mp here, (scanDir_iff entries s₁ s').mp walked⟩
        · rintro ⟨s₁, here, later⟩
          rw [(scanEntry_iff entry room).mpr here]
          exact (scanDir_iff entries s₁ s').mpr later

theorem scanEntry_iff (entry : DirEntry) {s s' : Scan} (room : ¬ (0 < limit ∧ limit ≤ s.count)) :
    scanEntry limit entry s = some s' ↔
      Collects s (missing limit s.count entry.filesOf) s' := by
  cases entry with
  | dots => rw [filesOf, missing_nil, collects_nil, scanEntry, Option.some.injEq, eq_comm]
  | file realpath =>
      rw [filesOf, missing_single _ room, scanEntry]
      constructor
      · intro resolved
        obtain ⟨path, rfl, rfl⟩ := Option.map_eq_some_iff.mp resolved
        exact ⟨[path], rfl, rfl⟩
      · rintro ⟨paths, is, rfl⟩
        obtain ⟨path, rfl, rfl⟩ := List.map_eq_singleton_iff.mp is.symm
        rfl
  | directory entries => exact scanDir_iff entries s s'
  | unreadable | broken =>
      rw [filesOf, missing_single _ room, scanEntry]
      constructor
      · exact fun is => by cases is
      · rintro ⟨paths, is, -⟩
        obtain ⟨path, -, fails⟩ := List.map_eq_singleton_iff.mp is.symm
        cases fails

end

end DirEntry

/-- What the client program meets besides the server: the paths and directories of its
    machine, and the sockets. `connect` stands for the attempts of
    `gnl_fss_api_open_connection` until one of them succeeds or the time is over. -/
structure Machine (σ : Type) extends Environment σ where
  realpath : CString → σ → Option CString
  opendir : CString → σ → Option (List DirEntry)
  connect : CString → σ → Bool × σ
  disconnect : σ → Bool × σ

namespace Client

variable {σ : Type} (m : Machine σ)

def optRtsScanDir (dirname : CString) (n : Int) : Api σ (List CString) := do
  failIf (n < 0) (.errno .EINVAL)
  let s ← get
  let entries ← orFail (m.opendir dirname s.world) (.errno .bubbled)
  let scan ← orFail (DirEntry.scanDir n entries { queue := [], count := 0 }) (.errno .bubbled)
  pure scan.queue

/-- The walk through a directory returns the first `n` files below it in the order of the
    walk, all of them if `n` is 0, and it returns only if there is nothing before the last
    of them that cannot be looked at. -/
theorem scanned_files (dirname : CString) (n : Int) (s t : Client σ) (queue : List CString) :
    optRtsScanDir m dirname n s = .ok queue t ↔ t = s ∧ 0 ≤ n ∧
      ∃ entries, m.opendir dirname s.world = some entries ∧
        DirEntry.missing n 0 (DirEntry.files entries) = queue.map some := by
  have scanned : ∀ entries scan, DirEntry.scanDir n entries ⟨[], 0⟩ = some scan ↔
      ∃ paths, DirEntry.missing n 0 (DirEntry.files entries) = paths.map some ∧
        scan = ⟨paths, paths.length⟩ := by
    intro entries scan
    rw [DirEntry.scanDir_iff, DirEntry.Collects]
    simp only [List.nil_append, Nat.zero_add]
  by_cases negative : n < 0
  · have fails : optRtsScanDir m dirname n s = .error (.errno .EINVAL) s := by
      simp only [optRtsScanDir, bind_run, Program.failIf, if_pos negative]
      rfl
    rw [fails]
    refine iff_of_false (fun is => by cases is) fun holds => ?_
    exact absurd holds.2.1 (by omega)
  · cases opened : m.opendir dirname s.world with
    | none =>
        have fails : optRtsScanDir m dirname n s = .error (.errno .bubbled) s := by
          simp only [optRtsScanDir, bind_run, Program.failIf, if_neg negative, pure_run, Program.get,
            Program.orFail, opened]
          rfl
        rw [fails]
        refine iff_of_false (fun is => by cases is) ?_
        rintro ⟨-, -, entries, is, -⟩
        cases is
    | some entries =>
        cases walked : DirEntry.scanDir n entries ⟨[], 0⟩ with
        | none =>
            have fails : optRtsScanDir m dirname n s = .error (.errno .bubbled) s := by
              simp only [optRtsScanDir, bind_run, Program.failIf, if_neg negative, pure_run,
                Program.get, Program.orFail, opened, walked]
              rfl
            rw [fails]
            refine iff_of_false (fun is => by cases is) ?_
            rintro ⟨-, -, _, is, found⟩
            cases is
            have some_ := (scanned entries _).mpr ⟨queue, found, rfl⟩
            cases walked.symm.trans some_
        | some scan =>
            have returns : optRtsScanDir m dirname n s = .ok scan.queue s := by
              simp only [optRtsScanDir, bind_run, Program.failIf, if_neg negative, pure_run,
                Program.get, Program.orFail, opened, walked]
            rw [returns]
            obtain ⟨paths, found, rfl⟩ := (scanned entries scan).mp walked
            constructor
            · intro is
              cases is
              exact ⟨rfl, by omega, entries, rfl, found⟩
            · rintro ⟨rfl, -, _, is, found'⟩
              cases is
              have same := List.map_injective_iff.mpr (Option.some_injective _)
                (found.symm.trans found')
              rw [← same]

/-- The loop of `gnl_opt_rts_parse_file_list`. A token takes a character at least, so the
    bound given by the caller is never reached. -/
def parseTokens : (bound : Nat) → List UInt8 → (queue : List CString) → Api σ (List CString)
  | 0, _, queue => pure queue
  | bound + 1, text, queue =>
      match (Txtenv.strtok 44 text).1 with
      | none => pure queue
      | some token => do
          let s ← get
          let path ← orFail (m.realpath (.upToNul token) s.world) (.errno .bubbled)
          parseTokens bound (Txtenv.strtok 44 text).2 (queue ++ [path])

def optRtsParseFileList (fileList : List UInt8) : Api σ (List CString) :=
  parseTokens m fileList.length fileList []

/-- A loop over a queue of files that an error ends. -/
def walk (callback : CString → Api σ Unit) : List CString → Api σ Unit
  | [] => pure ()
  | filename :: queue => do
      callback filename
      walk callback queue

def filenameArgWalk (arg : List UInt8) (callback : CString → Api σ Unit) : Api σ Unit := do
  let queue ← optRtsParseFileList m arg
  walk callback queue

end Client

end FileStorage
