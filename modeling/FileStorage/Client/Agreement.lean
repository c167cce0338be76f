import FileStorage.Client.Api
import FileStorage.Client.Descriptors

/-! # What client and server hold open

The client keeps one descriptor for each pathname, the server gives out a new one
for each open. They agree as long as no file is opened a second time.
-/

namespace FileStorage

open Program FileSystem

variable {codec : Codec} {σ : Type}

def Answer.Tells : Answer → Response → Prop
  | .OK_FD fd, .OK_FD payload => payload.number = fd
  | .OK_FILE bytes, .OK_FILE payload =>
      payload.bytes = some bytes ∧ payload.count = bytes.length
  | .OK_FILE_LIST files, .OK_FILE_LIST payload =>
      payload.queue.map (fun file => Filename.ofString file.string) = files.map EvictedFile.name
  | .OK, .OK => True
  | .ERROR _, .ERROR _ => True
  | _, _ => False

structure ServedBy (env : Environment σ) (fs : σ → FileSystem codec) (pid : Pid) : Prop where
  exchange : ∀ request world response, (env.exchange request world).1 = some response →
    ∃ answer : Answer, Serves pid request (fs world) answer (fs (env.exchange request world).2) ∧
      answer.Tells response
  save : ∀ filename dirname buf world,
    Others pid (fs world) (fs (env.save filename dirname buf world).2)

namespace Client

def Accepted (exchanges : List (Request × Option Response)) : Prop :=
  ∀ exchange ∈ exchanges, exchange.2.any (·.type ≠ .ERROR) = true

theorem accepted_append {exchanges : List (Request × Option Response)}
    {request : Request} {response : Option Response} :
    Accepted (exchanges ++ [(request, response)]) ↔
      Accepted exchanges ∧ response.any (·.type ≠ .ERROR) = true := by
  simp only [Accepted, List.mem_append, or_imp, forall_and, List.mem_singleton, forall_eq]

/-- The descriptors of the client are those of the server, each under one pathname,
    and a pathname has one exactly if it has been opened once more than closed. -/
structure Agrees (fs : σ → FileSystem codec) (pid : Pid) (s : Client σ) : Prop where
  counted : ∀ pathname, s.successes.count (.opened pathname) =
    s.successes.count (.closed pathname) +
      if (s.fileDescriptorTable.get pathname).isSome then 1 else 0
  bound : ∀ pathname fd, s.fileDescriptorTable.get pathname = some fd →
    ∃ n : Nat, n < maxOpenFiles ∧ fd = n ∧ Owns (fs s.world).view n pid
  reached : ∀ n, Owns (fs s.world).view n pid →
    ∃ pathname, s.fileDescriptorTable.get pathname = some (n : Int)
  apart : ∀ pathname other fd, s.fileDescriptorTable.get pathname = some fd →
    s.fileDescriptorTable.get other = some fd → pathname = other

/-- The client agrees with the server, if all its requests have been accepted, and
    its table is the given one. -/
def AgreesWith (fs : σ → FileSystem codec) (pid : Pid) (table : Filename → Option Int)
    (s : Client σ) : Prop :=
  Accepted s.exchanges → Agrees fs pid s ∧ ∀ pathname, s.fileDescriptorTable.get pathname =
    table pathname

variable {env : Environment σ} {fs : σ → FileSystem codec} {pid : Pid}
  {table : Filename → Option Int} {s : Client σ}

theorem accepted_exchange (served : ServedBy env fs pid) {request : Request}
    (accepted : Accepted (s.exchanged env request).exchanges) :
    Accepted s.exchanges ∧ ∃ answer response, (env.exchange request s.world).1 = some response ∧
      answer.Tells response ∧ (∀ code, answer ≠ .ERROR code) ∧
      Effect pid (fs s.world) (fs (s.exchanged env request).world) request answer := by
  obtain ⟨before, accepts⟩ := accepted_append.mp accepted
  cases received : (env.exchange request s.world).1 with
  | none =>
      rw [received] at accepts
      cases accepts
  | some response =>
      obtain ⟨answer, serves, tells⟩ := served.exchange request s.world response received
      refine ⟨before, answer, response, rfl, tells, fun code is => ?_, serves.effect⟩
      subst is
      rw [received] at accepts
      cases response with
      | ERROR payload => simp [Response.type] at accepts
      | _ => exact tells.elim

theorem Agrees.unmoved (agrees : Agrees fs pid s) {s' : Client σ}
    (successes : s'.successes = s.successes)
    (same : s'.fileDescriptorTable = s.fileDescriptorTable)
    (unmoved : Unmoved pid (fs s.world) (fs s'.world)) : Agrees fs pid s' := by
  obtain ⟨counted, bound, reached, apart⟩ := agrees
  refine ⟨?_, ?_, ?_, ?_⟩
  · rw [successes, same]
    exact counted
  · rw [same]
    intro pathname fd found
    obtain ⟨n, small, is, owns⟩ := bound pathname fd found
    exact ⟨n, small, is, (unmoved n).mpr owns⟩
  · rw [same]
    exact fun n owns => reached n ((unmoved n).mp owns)
  · rw [same]
    exact apart

def Steady (request : Request) : Prop := request.type ≠ .OPEN ∧ request.type ≠ .CLOSE

theorem Steady.unmoved {request : Request} (steady : Steady request) {answer : Answer}
    {before after : FileSystem codec} (accepts : ∀ code, answer ≠ .ERROR code)
    (effect : Effect pid before after request answer) : Unmoved pid before after := by
  unfold Effect at effect
  split at effect
  · exact absurd rfl (accepts _)
  · exact absurd rfl steady.1
  · exact absurd rfl steady.2
  all_goals first | exact effect | exact effect.elim

theorem keeps_steady (served : ServedBy env fs pid) {request : Request} (steady : Steady request) :
    Keeps (AgreesWith fs pid table) (sendAndDestroyRequest env request) := by
  refine keeps_send fun s agrees accepted => ?_
  obtain ⟨before, answer, response, -, -, accepts, effect⟩ := accepted_exchange served accepted
  obtain ⟨agrees, same⟩ := agrees before
  exact ⟨agrees.unmoved rfl rfl (steady.unmoved accepts effect), same⟩

theorem keeps_resetFlags : Keeps (AgreesWith fs pid table) (resetFlags : Api σ Unit) := by
  refine .modify fun s agrees accepted => ?_
  obtain ⟨agrees, same⟩ := agrees accepted
  exact ⟨agrees.unmoved rfl rfl fun _ => Iff.rfl, same⟩

theorem keeps_getDescriptor (pathname : Option CString) :
    Keeps (AgreesWith fs pid table) (getDescriptor pathname : Api σ Int) :=
  .bind (.orFail _ _) fun _ => .bind .get fun _ => .orFail _ _

theorem keeps_readFile (served : ServedBy env fs pid) (pathname : Option CString) :
    Keeps (AgreesWith fs pid table) (readFile env pathname) := by
  refine .bind (keeps_getDescriptor pathname) fun fd => ?_
  refine .bind (keeps_steady served ⟨nofun, nofun⟩) fun response => ?_
  cases response with
  | OK_FILE payload => exact .bind keeps_resetFlags fun _ => .pure _
  | _ => exact .throw _

theorem keeps_plainCall (served : ServedBy env fs pid) {request : Request}
    (steady : Steady request) : Keeps (AgreesWith fs pid table) (plainCall env request) := by
  refine .bind (keeps_steady served steady) fun response => ?_
  cases response with
  | OK => exact keeps_resetFlags
  | _ => exact .throw _

theorem keeps_saveFile (served : ServedBy env fs pid) (filename dirname : Option CString)
    (buf : Option (List UInt8)) :
    Keeps (AgreesWith fs pid table) (saveFile env filename dirname buf) := by
  intro s agrees
  unfold saveFile
  cases dirname with
  | none => exact agrees
  | some dirname =>
      have kept : ∀ world, world = (env.save filename dirname buf s.world).2 →
          AgreesWith fs pid table { s with world } := by
        rintro world rfl accepted
        obtain ⟨agrees, same⟩ := agrees accepted
        exact ⟨agrees.unmoved rfl rfl (served.save filename dirname buf s.world).unmoved, same⟩
      simp only []
      split <;> exact kept _ rfl

theorem keeps_saveFiles (served : ServedBy env fs pid) (dirname : Option CString)
    (files : List MessageSnb) : Keeps (AgreesWith fs pid table) (saveFiles env dirname files) := by
  induction files with
  | nil => exact .pure _
  | cons file rest ih => exact .bind (keeps_saveFile served _ _ _) fun _ => ih

theorem keeps_appendToFile (served : ServedBy env fs pid) (pathname : Option CString)
    (buf : List UInt8) (dirname : Option CString) :
    Keeps (AgreesWith fs pid table) (appendToFile env pathname buf dirname) := by
  refine .bind (keeps_getDescriptor pathname) fun fd => ?_
  refine .bind (keeps_steady served ⟨nofun, nofun⟩) fun response => ?_
  cases response with
  | OK => exact keeps_resetFlags
  | OK_FILE_LIST payload =>
      exact .bind (keeps_saveFiles served dirname payload.queue) fun _ => keeps_resetFlags
  | _ => exact .throw _

theorem keeps_writeFile (served : ServedBy env fs pid) (pathname dirname : Option CString) :
    Keeps (AgreesWith fs pid table) (writeFile env pathname dirname) :=
  .bind .get fun _ => .bind (.failIf _ _) fun _ => .bind (.orFail _ _) fun _ => .bind .get fun _ =>
    .bind (.orFail _ _) fun file => keeps_appendToFile served pathname file dirname

/-! ## Opening and closing -/

theorem Agrees.opened (agrees : Agrees fs pid s) {s' : Client σ} {pathname : Filename} {n : Nat}
    (fresh : s.fileDescriptorTable.get pathname = none) (small : n < maxOpenFiles)
    (opened : Opened pid n (fs s.world) (fs s'.world))
    (get : ∀ other, s'.fileDescriptorTable.get other =
      if other = pathname then some (n : Int) else s.fileDescriptorTable.get other)
    (successes : s'.successes = s.successes ++ [.opened pathname]) : Agrees fs pid s' := by
  obtain ⟨unowned, owned⟩ := opened
  refine ⟨fun other => ?_, fun other fd found => ?_, fun m owns => ?_,
    fun first second fd found found' => ?_⟩
  · have counted := agrees.counted other
    rw [successes, List.count_append, List.count_append, get]
    by_cases same : other = pathname
    · subst same
      simp [fresh] at counted ⊢
      omega
    · have other_name : Success.opened pathname ≠ .opened other := by
        simpa using Ne.symm same
      simpa [same, List.count_singleton, other_name] using counted
  · rw [get] at found
    split at found
    · obtain rfl := Option.some.inj found
      exact ⟨n, small, rfl, (owned n).mpr (.inl rfl)⟩
    · obtain ⟨m, small, is, owns⟩ := agrees.bound other fd found
      exact ⟨m, small, is, (owned m).mpr (.inr owns)⟩
  · rcases (owned m).mp owns with rfl | before
    · exact ⟨pathname, by rw [get, if_pos rfl]⟩
    · obtain ⟨other, found⟩ := agrees.reached m before
      have away : other ≠ pathname := by
        rintro rfl
        rw [fresh] at found
        cases found
      exact ⟨other, by rw [get, if_neg away, found]⟩
  · have unbound : ∀ other, s.fileDescriptorTable.get other ≠ some (n : Int) := by
      intro other found
      obtain ⟨m, -, is, owns⟩ := agrees.bound other _ found
      obtain rfl : n = m := Int.ofNat_inj.mp is
      exact unowned owns
    rw [get] at found found'
    split at found
    · rename_i here
      split at found'
      · rename_i here'
        exact here.trans here'.symm
      · rw [← Option.some.inj found] at found'
        exact absurd found' (unbound second)
    · split at found'
      · rw [← Option.some.inj found'] at found
        exact absurd found (unbound first)
      · exact agrees.apart first second fd found found'

/-- A close that succeeds takes its descriptor away. -/
theorem Agrees.closed (agrees : Agrees fs pid s) {s' : Client σ} {pathname : Filename} {n : Nat}
    (found : s.fileDescriptorTable.get pathname = some (n : Int))
    (closed : Closed pid n (fs s.world) (fs s'.world))
    (get : ∀ other, s'.fileDescriptorTable.get other =
      if other = pathname then none else s.fileDescriptorTable.get other)
    (successes : s'.successes = s.successes ++ [.closed pathname]) : Agrees fs pid s' := by
  obtain ⟨-, owned⟩ := closed
  refine ⟨fun other => ?_, fun other fd found' => ?_, fun m owns => ?_,
    fun first second fd found₁ found₂ => ?_⟩
  · have counted := agrees.counted other
    rw [successes, List.count_append, List.count_append, get]
    by_cases same : other = pathname
    · subst same
      simp [found] at counted ⊢
      omega
    · have other_name : Success.closed pathname ≠ .closed other := by
        simpa using Ne.symm same
      simpa [same, List.count_singleton, other_name] using counted
  · rw [get] at found'
    split at found'
    · cases found'
    · rename_i away
      obtain ⟨m, small, rfl, owns⟩ := agrees.bound other fd found'
      refine ⟨m, small, rfl, (owned m).mpr ⟨?_, owns⟩⟩
      rintro rfl
      exact away (agrees.apart other pathname _ found' found)
  · obtain ⟨different, before⟩ := (owned m).mp owns
    obtain ⟨other, bound⟩ := agrees.reached m before
    have away : other ≠ pathname := by
      rintro rfl
      rw [found] at bound
      exact different (Int.ofNat_inj.mp (Option.some.inj bound)).symm
    exact ⟨other, by rw [get, if_neg away, bound]⟩
  · rw [get] at found₁ found₂
    split at found₁
    · cases found₁
    · split at found₂
      · cases found₂
      · exact agrees.apart first second fd found₁ found₂

theorem openFile_agrees (served : ServedBy env fs pid) (agrees : AgreesWith fs pid table s)
    {pathname : Option CString} (fresh : table (Filename.ofString pathname) = none) (flags : Int) :
    (openFile env pathname flags s).Post
      (fun _ s' => pathname ≠ none ∧ ∃ fd, AgreesWith fs pid
        (Function.update table (Filename.ofString pathname) (some fd)) s')
      (fun _ s' => AgreesWith fs pid table s') (fun _ => True) := by
  simp only [openFile, post_bind, post_orFail, post_send]
  refine ⟨fun _ => agrees, fun path named => ?_⟩
  have exchanged : Accepted (s.exchanged env (.OPEN ⟨pathname, flags⟩)).exchanges →
      ∃ n : Nat, (env.exchange (.OPEN ⟨pathname, flags⟩) s.world).1 = some (.OK_FD ⟨n⟩) ∧
        Filename.ofString pathname ≠ [] ∧ n < maxOpenFiles ∧
        Opened pid n (fs s.world) (fs (s.exchanged env (.OPEN ⟨pathname, flags⟩)).world) ∧
        Agrees fs pid s ∧ ∀ other, s.fileDescriptorTable.get other = table other := by
    intro accepted
    obtain ⟨before, answer, response, received, tells, accepts, effect⟩ :=
      accepted_exchange served accepted
    obtain ⟨agrees, same⟩ := agrees before
    cases answer with
    | OK_FD n =>
        cases response with
        | OK_FD payload =>
            obtain ⟨number⟩ := payload
            cases tells
            exact ⟨n, received, effect.1.1, effect.1.2, effect.2, agrees, same⟩
        | _ => exact tells.elim
    | ERROR code => exact absurd rfl (accepts code)
    | _ => exact effect.elim
  cases received : (env.exchange (.OPEN ⟨pathname, flags⟩) s.world).1 with
  | none =>
      intro accepted
      obtain ⟨n, is, -⟩ := exchanged accepted
      rw [received] at is
      cases is
  | some response =>
      cases response with
      | OK_FD payload =>
          simp only [post_bind, post_modify, post_failIf, post_get, post_orFail, record]
          refine ⟨fun wrong accepted => ?_, fun _ => ⟨fun empty accepted => ?_, fun new put => ?_⟩⟩
          · obtain ⟨n, is, -⟩ := exchanged accepted
            rw [received] at is
            cases is
            have wrong : (n : Int) = -1 := wrong
            omega
          · obtain ⟨n, -, nonempty, -⟩ := exchanged accepted
            cases key : Filename.ofString pathname with
            | nil => exact absurd key nonempty
            | cons first rest =>
                rw [key] at empty
                cases empty
          · refine ⟨by rw [named]; exact Option.some_ne_none path, payload.number, ?_⟩
            intro accepted
            obtain ⟨n, is, -, small, opened, agrees, same⟩ := exchanged accepted
            rw [received] at is
            cases is
            have get := TernarySearchTree.get_put put
            refine ⟨agrees.opened ((same _).trans fresh) small opened get rfl, fun other => ?_⟩
            rw [Function.update_apply, ← same other]
            exact get other
      | _ =>
          intro accepted
          obtain ⟨n, is, -⟩ := exchanged accepted
          rw [received] at is
          cases is

theorem closeFile_agrees (served : ServedBy env fs pid) (agrees : AgreesWith fs pid table s)
    (pathname : Option CString) :
    (closeFile env pathname s).Post
      (fun _ s' => AgreesWith fs pid (Function.update table (Filename.ofString pathname) none) s')
      (fun _ s' => AgreesWith fs pid table s' ∧ (pathname ≠ none →
        table (Filename.ofString pathname) ≠ none → ¬ Accepted s'.exchanges))
      (fun _ => True) := by
  simp only [closeFile, getDescriptor, post_bind, post_orFail, post_get, post_send]
  refine ⟨fun null => ⟨agrees, fun named => absurd null named⟩, fun path _ =>
    ⟨fun absent => ⟨agrees, fun _ bound accepted => ?_⟩, fun fd found => ?_⟩⟩
  · rw [← (agrees accepted).2, absent] at bound
    exact bound rfl
  · have exchanged : Accepted (s.exchanged env (.CLOSE ⟨fd⟩)).exchanges →
        ∃ n : Nat, fd = n ∧ (env.exchange (.CLOSE ⟨fd⟩) s.world).1 = some .OK ∧
          Closed pid n (fs s.world) (fs (s.exchanged env (.CLOSE ⟨fd⟩)).world) ∧
          Agrees fs pid s ∧ ∀ other, s.fileDescriptorTable.get other = table other := by
      intro accepted
      obtain ⟨before, answer, response, received, tells, accepts, effect⟩ :=
        accepted_exchange served accepted
      obtain ⟨agrees, same⟩ := agrees before
      obtain ⟨n, small, rfl, -⟩ := agrees.bound _ fd found
      have number : toUnsigned32 (n : Int) = n := by
        unfold toUnsigned32
        rw [maxOpenFiles] at small
        omega
      cases answer with
      | OK =>
          cases response with
          | OK =>
              have closed : Closed pid (toUnsigned32 (n : Int)) (fs s.world)
                  (fs (s.exchanged env (.CLOSE ⟨n⟩)).world) := effect
              rw [number] at closed
              exact ⟨n, rfl, received, closed, agrees, same⟩
          | _ => exact tells.elim
      | ERROR code => exact absurd rfl (accepts code)
      | _ => exact effect.elim
    have refused : (env.exchange (.CLOSE ⟨fd⟩) s.world).1 ≠ some .OK →
        ¬ Accepted (s.exchanged env (.CLOSE ⟨fd⟩)).exchanges := by
      intro other accepted
      obtain ⟨n, -, is, -⟩ := exchanged accepted
      exact other is
    cases received : (env.exchange (.CLOSE ⟨fd⟩) s.world).1 with
    | none =>
        have never := refused (by simp [received])
        exact ⟨fun accepted => absurd accepted never, fun _ _ => never⟩
    | some response =>
        cases response with
        | OK =>
            simp only [post_bind, post_get]
            cases removed : (s.exchanged env (.CLOSE ⟨fd⟩)).fileDescriptorTable.remove
                (Filename.ofString pathname) with
            | none => trivial
            | some new =>
                intro accepted
                obtain ⟨n, rfl, -, closed, agrees, same⟩ := exchanged accepted
                have get := TernarySearchTree.get_remove removed
                refine ⟨agrees.closed found closed get rfl, fun other => ?_⟩
                rw [Function.update_apply, ← same other]
                exact get other
        | _ =>
            have never := refused (by simp [received])
            exact ⟨fun accepted => absurd accepted never, fun _ _ => never⟩

/-- The files that the loop of `readNFiles` still opens. -/
def toRead (N : Int) (count : Nat) (files : List MessageSnb) : List MessageSnb :=
  if 0 < N then files.take (N.toNat - count) else files

theorem readFiles_agrees (served : ServedBy env fs pid) (N : Int) (dirname : Option CString)
    (files : List MessageSnb) (count : Nat) (room : 0 < N → count < N)
    (fresh : ∀ file ∈ toRead N count files, table (Filename.ofString file.string) = none)
    (agrees : AgreesWith fs pid table s) :
    (readFiles env N dirname files count s).Post (fun _ => AgreesWith fs pid table)
      (fun _ => AgreesWith fs pid table) (fun _ => True) := by
  induction files generalizing count s with
  | nil => exact agrees
  | cons file rest ih =>
      have first : file ∈ toRead N count (file :: rest) := by
        unfold toRead
        split
        · rename_i positive
          obtain ⟨left, is⟩ : ∃ left, N.toNat - count = left + 1 :=
            ⟨N.toNat - count - 1, by have := room positive; omega⟩
          rw [is, List.take_succ_cons]
          exact List.mem_cons_self
        · exact List.mem_cons_self
      have later : ∀ other ∈ toRead N (count + 1) rest, other ∈ toRead N count (file :: rest) := by
        intro other
        unfold toRead
        split
        · rename_i positive
          obtain ⟨left, is⟩ : ∃ left, N.toNat - count = left + 1 :=
            ⟨N.toNat - count - 1, by have := room positive; omega⟩
          have is' : N.toNat - (count + 1) = left := by omega
          rw [is, is', List.take_succ_cons]
          exact List.mem_cons_of_mem _
        · exact List.mem_cons_of_mem _
      simp only [readFiles, post_bind]
      refine (openFile_agrees served agrees (fresh file first) 0).mono ?_ (fun _ _ agrees => agrees)
        (fun _ _ => trivial)
      rintro - s₁ ⟨named, fd, agrees₁⟩
      have restored : Function.update (Function.update table (Filename.ofString file.string) (some fd))
          (Filename.ofString file.string) none = table := by
        rw [Function.update_idem, Function.update_eq_self_iff, fresh file first]
      -- the file is closed again, unless the server has refused something
      have closing : ∀ {s₂ : Client σ}, AgreesWith fs pid
          (Function.update table (Filename.ofString file.string) (some fd)) s₂ →
          (closeFile env file.string s₂).Post (fun _ => AgreesWith fs pid table)
            (fun _ => AgreesWith fs pid table) (fun _ => True) := by
        intro s₂ agrees₂
        refine (closeFile_agrees served agrees₂ file.string).mono (fun _ s₃ agrees₃ => ?_)
          (fun _ s₃ failed accepted => ?_) (fun _ _ => trivial)
        · rwa [restored] at agrees₃
        · exact absurd accepted (failed.2 named (by simp))
      rw [post_attempt]
      refine (keeps_readFile served file.string s₁ agrees₁).mono (fun bytes s₂ agrees₂ => ?_)
        (fun code s₂ agrees₂ => ?_) (fun _ _ => trivial)
      · rw [post_attempt]
        refine (closing agrees₂).mono (fun _ s₃ agrees₃ => ?_) (fun _ _ agrees => agrees)
          (fun _ _ => trivial)
        simp only [post_bind]
        refine (keeps_saveFile served file.string dirname bytes.1 s₃ agrees₃).mono ?_
          (fun _ _ agrees => agrees) (fun _ _ => trivial)
        intro _ s₄ agrees₄
        rw [post_ite]
        refine ⟨fun _ => agrees₄, fun more => ih (count + 1) (fun positive => ?_)
          (fun other member => fresh other (later other member)) agrees₄⟩
        have := room positive
        omega
      · rw [post_attempt]
        exact (closing agrees₂).mono (fun _ _ agrees => agrees) (fun _ _ agrees => agrees)
          (fun _ _ => trivial)

theorem readNFiles_agrees (served : ServedBy env fs pid) (N : Int) (dirname : Option CString)
    (fresh : ∀ payload, (env.exchange (.READ_N ⟨N⟩) s.world).1 = some (.OK_FILE_LIST payload) →
      ∀ file ∈ toRead N 0 payload.queue, table (Filename.ofString file.string) = none)
    (agrees : AgreesWith fs pid table s) :
    (readNFiles env N dirname s).Post (fun _ => AgreesWith fs pid table)
      (fun _ => AgreesWith fs pid table) (fun _ => True) := by
  have steady : Steady (.READ_N ⟨N⟩) := ⟨nofun, nofun⟩
  have sent := keeps_steady served steady s agrees
  simp only [readNFiles, post_bind, post_send] at sent ⊢
  cases received : (env.exchange (.READ_N ⟨N⟩) s.world).1 with
  | none =>
      rw [received] at sent
      exact sent
  | some response =>
      rw [received] at sent
      cases response with
      | OK => exact keeps_resetFlags _ sent
      | OK_FILE_LIST payload =>
          simp only [post_bind]
          refine (readFiles_agrees served N dirname payload.queue 0 (by omega)
            (fresh payload received) sent).mono ?_ (fun _ _ agrees => agrees) (fun _ _ => trivial)
          exact fun count s' agrees => keeps_resetFlags s' agrees
      | _ => exact sent

end Client

/-! ## Runs -/

namespace ApiRun

variable {env : Environment σ} {fs : σ → FileSystem codec} {pid : Pid} {s : ApiRun σ}

def OpensOnce (env : Environment σ) (s : ApiRun σ) : ApiCall → Prop
  | .openFile pathname _ => s.client.fileDescriptorTable.get (Filename.ofString pathname) = none
  | .readNFiles N _ => ∀ payload,
      (env.exchange (.READ_N ⟨N⟩) s.client.world).1 = some (.OK_FILE_LIST payload) →
        ∀ file ∈ Client.toRead N 0 payload.queue,
          s.client.fileDescriptorTable.get (Filename.ofString file.string) = none
  | _ => True

theorem perform_agrees (served : ServedBy env fs pid) {call : ApiCall}
    (once : OpensOnce env s call)
    (agrees : Client.AgreesWith fs pid s.client.fileDescriptorTable.get s.client) :
    (call.perform env s.client).Post (fun _ s' => ∃ table, Client.AgreesWith fs pid table s')
      (fun _ s' => ∃ table, Client.AgreesWith fs pid table s') (fun _ => True) := by
  have keeps : ∀ {α : Type} {p : Api σ α},
      (p s.client).Post (fun _ => Client.AgreesWith fs pid s.client.fileDescriptorTable.get)
        (fun _ => Client.AgreesWith fs pid s.client.fileDescriptorTable.get) (fun _ => True) →
      (p s.client).Post (fun _ s' => ∃ table, Client.AgreesWith fs pid table s')
        (fun _ s' => ∃ table, Client.AgreesWith fs pid table s') (fun _ => True) :=
    fun post => post.mono (fun _ _ agrees => ⟨_, agrees⟩) (fun _ _ agrees => ⟨_, agrees⟩)
      (fun _ _ => trivial)
  cases call with
  | openFile pathname flags =>
      exact (Client.openFile_agrees served agrees once flags).mono
        (fun _ _ opened => ⟨_, opened.2.choose_spec⟩) (fun _ _ agrees => ⟨_, agrees⟩)
        (fun _ _ => trivial)
  | closeFile pathname =>
      exact (Client.closeFile_agrees served agrees pathname).mono (fun _ _ agrees => ⟨_, agrees⟩)
        (fun _ _ failed => ⟨_, failed.1⟩) (fun _ _ => trivial)
  | readFile pathname =>
      refine keeps ?_
      rw [ApiCall.perform, Client.discard, post_bind]
      exact Client.keeps_readFile served pathname _ agrees
  | readNFiles N dirname =>
      refine keeps ?_
      rw [ApiCall.perform, Client.discard, post_bind]
      exact Client.readNFiles_agrees served N dirname once agrees
  | writeFile pathname dirname =>
      exact keeps (Client.keeps_writeFile served pathname dirname _ agrees)
  | appendToFile pathname buf dirname =>
      exact keeps (Client.keeps_appendToFile served pathname buf dirname _ agrees)
  | lockFile pathname =>
      have steady : ∀ fd, Client.Steady (.LOCK ⟨fd⟩) := fun fd => ⟨nofun, nofun⟩
      exact keeps (Keeps.bind (Client.keeps_getDescriptor pathname)
        (fun fd => Client.keeps_plainCall served (steady fd)) _ agrees)
  | unlockFile pathname =>
      have steady : ∀ fd, Client.Steady (.UNLOCK ⟨fd⟩) := fun fd => ⟨nofun, nofun⟩
      exact keeps (Keeps.bind (Client.keeps_getDescriptor pathname)
        (fun fd => Client.keeps_plainCall served (steady fd)) _ agrees)
  | removeFile pathname =>
      have steady : Client.Steady (.REMOVE ⟨pathname⟩) := ⟨nofun, nofun⟩
      exact keeps (Keeps.bind (.orFail _ _)
        (fun _ => Client.keeps_plainCall served steady) _ agrees)

/-- In every run against a server that accepts all requests, in which no file is
    opened that is open already, the client has a descriptor for a file exactly if it
    has opened it more often than closed, this descriptor is open on the server, and
    the server has no other descriptors open for the client. -/
theorem client_agrees (env : Environment σ) (fs : σ → FileSystem codec) (pid : Pid)
    (served : ServedBy env fs pid) (world : σ) (none_ : ∀ n, ¬ Owns (fs world).view n pid)
    (calls : List ApiCall) (s : ApiRun σ)
    (run : (apiSystem env).Trace (init world) calls s)
    (once : (apiSystem env).Meets (OpensOnce env) (init world) calls)
    (accepted : Client.Accepted s.client.exchanges) :
    (∀ pathname, (s.client.fileDescriptorTable.get pathname).isSome ↔
      s.client.successes.count (.closed pathname) < s.client.successes.count (.opened pathname)) ∧
    (∀ pathname fd, s.client.fileDescriptorTable.get pathname = some fd →
      0 ≤ fd ∧ Owns (fs s.client.world).view fd.toNat pid) ∧
    ∀ n, Owns (fs s.client.world).view n pid →
      ∃ pathname, s.client.fileDescriptorTable.get pathname = some (n : Int) := by
  have step : ∀ (s : ApiRun σ) (call : ApiCall),
      (Client.Accepted s.client.exchanges → Client.Agrees fs pid s.client) →
      (apiSystem env).Enabled s call → OpensOnce env s call →
      (Client.Accepted ((apiSystem env).apply s call).client.exchanges →
        Client.Agrees fs pid ((apiSystem env).apply s call).client) := by
    intro s call agrees enabled once
    have post := perform_agrees served once fun accepted => ⟨agrees accepted, fun _ => rfl⟩
    simp only [apiSystem] at enabled ⊢
    cases outcome : call.perform env s.client with
    | ok value client =>
        rw [outcome] at post
        obtain ⟨table, agrees⟩ := post
        exact fun accepted => (agrees accepted).1
    | error code client =>
        rw [outcome] at post
        obtain ⟨table, agrees⟩ := post
        exact fun accepted => (agrees accepted).1
    | fault why =>
        rw [outcome] at enabled
        cases enabled
  have agrees : Client.Agrees fs pid s.client := by
    have nothing : ∀ pathname, (init world).client.fileDescriptorTable.get pathname = none := by
      intro pathname
      cases pathname <;> rfl
    refine run.keeps step once (fun _ => ⟨fun pathname => ?_, fun pathname fd found => ?_,
      fun n owns => absurd owns (none_ n), fun pathname other fd found => ?_⟩) accepted
    · rw [nothing]
      rfl
    all_goals
      rw [nothing] at found
      cases found
  refine ⟨fun pathname => ?_, fun pathname fd found => ?_, agrees.reached⟩
  · have counted := agrees.counted pathname
    split at counted <;> rename_i there
    · exact iff_of_true there (by omega)
    · exact iff_of_false there (by omega)
  · obtain ⟨n, -, rfl, owns⟩ := agrees.bound pathname fd found
    exact ⟨Int.natCast_nonneg n, owns⟩

/-- A server that has only this client, and is silent when it does not simply agree. -/
def alone (pid : Pid) : Environment (FileSystem huffmanCodec) where
  exchange request fs := match handleRequest pid 0 request fs with
    | .ok (.done (.OK_FD fd)) fs' => (some (.OK_FD ⟨fd⟩), fs')
    | .ok (.done .OK) fs' => (some .OK, fs')
    | _ => (none, fs)
  fileToPointer _ _ := none
  save _ _ _ fs := (false, fs)

theorem alone_served (pid : Pid) : ServedBy (alone pid) id pid where
  exchange := by
    intro request fs response received
    simp only [alone] at received ⊢
    split at received
    · rename_i fd fs' handled
      cases received
      exact ⟨.OK_FD fd, .answered handled, rfl⟩
    · rename_i fs' handled
      cases received
      exact ⟨.OK, .answered handled, trivial⟩
    · cases received
  save := fun _ _ _ _ => .refl

def reopened : List ApiCall :=
  [.openFile (some (.upToNul [102])) 1, .closeFile (some (.upToNul [102])),
    .openFile (some (.upToNul [102])) 0]

theorem client_agrees_reopened : ∃ s,
    (apiSystem (alone 5)).Trace (init (.init 1 4 .fifo)) reopened s ∧
    Client.Accepted s.client.exchanges ∧ s.client.fileDescriptorTable.get [102] = some 0 ∧
    Owns (FileSystem.view s.client.world) 0 5 := by
  have enabled : (apiSystem (alone 5)).Meets (apiSystem (alone 5)).Enabled
      (init (.init 1 4 .fifo)) reopened := by decide +kernel
  have closed : ([.openFile (some (.upToNul [102])) 1, .closeFile (some (.upToNul [102]))].foldl
      (apiSystem (alone 5)).apply (init (.init 1 4 .fifo))).client.fileDescriptorTable.get [102] =
        none := by decide +kernel
  have once : (apiSystem (alone 5)).Meets (OpensOnce (alone 5)) (init (.init 1 4 .fifo)) reopened :=
    ⟨rfl, trivial, closed, trivial⟩
  have accepted : Client.Accepted (reopened.foldl (apiSystem (alone 5)).apply
      (init (.init 1 4 .fifo))).client.exchanges := by
    unfold Client.Accepted
    decide +kernel
  have none_ : ∀ n, ¬ Owns (FileSystem.init 1 4 .fifo : FileSystem huffmanCodec).view n 5 := by
    rintro n ⟨s, live, -⟩
    rw [init_view] at live
    cases live
  have run := ActionSystem.Trace.of_enabled enabled
  obtain ⟨-, bound, -⟩ := client_agrees (alone 5) id 5 (alone_served 5) _ none_ reopened _ run once
    accepted
  have found : (reopened.foldl (apiSystem (alone 5)).apply
      (init (.init 1 4 .fifo))).client.fileDescriptorTable.get [102] = some 0 := by decide +kernel
  exact ⟨_, run, accepted, found, (bound [102] 0 found).2⟩

/-- A file that is open is opened a second time and closed once: the client has no
    descriptor of it any more. -/
theorem client_loses_descriptor : ∃ s, ServedBy (alone 5) id 5 ∧
    (apiSystem (alone 5)).Trace (init (.init 1 4 .fifo)) [.openFile (some (.upToNul [102])) 1,
      .openFile (some (.upToNul [102])) 0, .closeFile (some (.upToNul [102]))] s ∧
    Client.Accepted s.client.exchanges ∧
    ¬ ∀ pathname, (s.client.fileDescriptorTable.get pathname).isSome ↔
      s.client.successes.count (.closed pathname) < s.client.successes.count (.opened pathname) := by
  have enabled : (apiSystem (alone 5)).Meets (apiSystem (alone 5)).Enabled
      (init (.init 1 4 .fifo)) [.openFile (some (.upToNul [102])) 1,
        .openFile (some (.upToNul [102])) 0, .closeFile (some (.upToNul [102]))] := by decide +kernel
  refine ⟨_, alone_served 5, ActionSystem.Trace.of_enabled enabled, ?_, fun agree => ?_⟩
  · unfold Client.Accepted
    decide +kernel
  · have lost := agree [102]
    revert lost
    decide +kernel

end ApiRun

end FileStorage
