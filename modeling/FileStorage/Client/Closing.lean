import FileStorage.Client.Brackets

/-! # Every file that is opened is closed again

Whatever the server answers, and whichever step of a command fails: a descriptor that the
server has handed out to the client program is named in a later request to close it.
-/

namespace FileStorage

open Program

namespace Client

variable {σ : Type} {env : Environment σ}

/-- The server hands out a descriptor that the client can remember. -/
def Hands (exchange : Request × Option Response) (fd : Int) : Prop :=
  ∃ pathname flags, exchange = (.OPEN ⟨pathname, flags⟩, some (.OK_FD ⟨fd⟩)) ∧ fd ≠ -1 ∧
    Filename.ofString pathname ≠ []

/-- What is handed out is closed later on, and no other file is opened before. -/
def ClosesAll (exchanges : List (Request × Option Response)) : Prop :=
  ∀ before exchange after fd, exchanges = before ++ exchange :: after → Hands exchange fd →
    ∃ between response rest, after = between ++ (.CLOSE ⟨fd⟩, response) :: rest ∧
      ∀ other ∈ between, other.1.type ≠ .OPEN

variable {exchanges more : List (Request × Option Response)}
  {exchange : Request × Option Response} {fd : Int} {request : Request}

theorem closesAll_nil : ClosesAll [] := by
  intro before exchange after fd whole
  cases before <;> cases whole

theorem ClosesAll.append (first : ClosesAll exchanges) (second : ClosesAll more) :
    ClosesAll (exchanges ++ more) := by
  intro before exchange after fd whole hands
  obtain ⟨late, rfl, rest⟩ | ⟨early, rfl, rest⟩ := List.append_eq_append_iff.mp whole
  · exact second late exchange after fd rest hands
  · cases early with
    | nil => exact second [] exchange after fd rest.symm hands
    | cons exchange' early =>
        obtain ⟨rfl, rfl⟩ := List.cons.inj rest
        obtain ⟨between, response, later, rfl, quiet⟩ := first before exchange early fd rfl hands
        exact ⟨between, response, later ++ more, List.append_assoc between _ more, quiet⟩

theorem closesAll_single (none_ : ∀ fd, ¬ Hands exchange fd) : ClosesAll [exchange] := by
  intro before other after fd whole hands
  have member : other ∈ [exchange] := by
    rw [whole]
    exact List.mem_append_right _ List.mem_cons_self
  obtain rfl := List.mem_singleton.mp member
  exact absurd hands (none_ fd)

theorem Hands.opens (hands : Hands exchange fd) : exchange.1.type = .OPEN := by
  obtain ⟨_, _, rfl, -⟩ := hands
  rfl

/-- A descriptor, requests that open nothing, and the request to close it. -/
theorem closesAll_between {response : Option Response}
    (quiet : ∀ other ∈ more, other.1.type ≠ .OPEN) (hands : Hands exchange fd) :
    ClosesAll (exchange :: (more ++ [(.CLOSE ⟨fd⟩, response)])) := by
  intro before other after fd' whole hands'
  cases before with
  | nil =>
      obtain ⟨rfl, rfl⟩ := List.cons.inj whole
      obtain ⟨_, _, is, -⟩ := hands
      obtain ⟨_, _, is', -⟩ := hands'
      cases is.symm.trans is'
      exact ⟨more, response, [], rfl, quiet⟩
  | cons first before =>
      have member : other ∈ more ++ [(.CLOSE ⟨fd⟩, response)] := by
        rw [(List.cons.inj whole).2]
        exact List.mem_append_right _ List.mem_cons_self
      rcases List.mem_append.mp member with earlier | last
      · exact absurd hands'.opens (quiet other earlier)
      · rw [List.mem_singleton.mp last] at hands'
        cases hands'.opens

/-! ## A file between its open and its close -/

def AllClosed (s : Client σ) : Prop := ClosesAll s.exchanges

def Open (pathname : CString) (s : Client σ) : Prop :=
  ∃ exchange fd before between, ClosesAll before ∧ Hands exchange fd ∧
    (∀ other ∈ between, other.1.type ≠ .OPEN) ∧ s.exchanges = before ++ exchange :: between ∧
    s.fileDescriptorTable.get (Filename.ofString (some pathname)) = some fd

theorem undisturbed_closed : Undisturbed env (AllClosed : Client σ → Prop) where
  exchanged := fun _ _ steady closed =>
    closed.append (closesAll_single fun _ hands => steady.1 hands.opens)
  flags := fun _ closed => closed
  save := fun _ _ _ _ closed => closed

theorem undisturbed_open (pathname : CString) :
    Undisturbed env (Open pathname : Client σ → Prop) where
  exchanged := by
    rintro s request steady ⟨exchange, fd, before, between, first, hands, quiet, is, found⟩
    refine ⟨exchange, fd, before, between ++ [(request, (env.exchange request s.world).1)], first,
      hands, ?_, ?_, found⟩
    · refine List.forall_mem_append.mpr ⟨quiet, ?_⟩
      exact List.forall_mem_singleton.mpr steady.1
    · rw [exchanged, is, List.append_assoc]
      rfl
  flags := fun _ is => is
  save := fun _ _ _ _ is => is

/-- An open either fails and hands nothing out, or the file is open. -/
theorem openFile_opens {s : Client σ} (closed : AllClosed s) (pathname : CString) (flags : Int) :
    (openFile env (some pathname) flags s).Post (fun _ => Open pathname) (fun _ => AllClosed)
      (fun _ => True) := by
  simp only [openFile, post_bind, post_orFail, post_send]
  refine ⟨fun null => absurd null (Option.some_ne_none _), fun path _ => ?_⟩
  cases received : (env.exchange (.OPEN ⟨some pathname, flags⟩) s.world).1 with
  | none =>
      refine closed.append (closesAll_single ?_)
      rintro fd ⟨_, _, is, -⟩
      cases received.symm.trans (Prod.mk.inj is).2
  | some response =>
      cases response with
      | OK_FD payload =>
          simp only [post_bind, post_modify, post_failIf, post_get, post_orFail]
          have not_handed : (payload.number = -1 ∨ Filename.ofString (some pathname) = []) →
              AllClosed (s.exchanged env (.OPEN ⟨some pathname, flags⟩)) := by
            intro odd
            refine closed.append (closesAll_single ?_)
            rintro fd ⟨_, _, is, number, named⟩
            obtain ⟨is, got⟩ := Prod.mk.inj is
            cases is
            cases received.symm.trans got
            exact odd.elim number named
          refine ⟨fun minus => not_handed (.inl minus), fun number => ⟨fun fails => ?_,
            fun table added => ?_⟩⟩
          · refine not_handed (.inr ?_)
            cases named : Filename.ofString (some pathname) with
            | nil => rfl
            | cons c name =>
                rw [named] at fails
                cases fails
          · have named : Filename.ofString (some pathname) ≠ [] := by
              intro empty
              rw [empty] at added
              cases added
            refine ⟨_, payload.number, s.exchanges, [], closed,
              ⟨some pathname, flags, rfl, number, named⟩,
              fun _ none_ => absurd none_ List.not_mem_nil, ?_, ?_⟩
            · change s.exchanges ++ [(_, (env.exchange _ s.world).1)] = _
              rw [received]
            · exact (TernarySearchTree.get_put added _).trans (if_pos rfl)
      | ERROR payload =>
          refine closed.append (closesAll_single ?_)
          rintro fd ⟨_, _, is, -⟩
          cases received.symm.trans (Prod.mk.inj is).2
      | _ =>
          refine closed.append (closesAll_single ?_)
          rintro fd ⟨_, _, is, -⟩
          cases received.symm.trans (Prod.mk.inj is).2

/-- A close is asked for, whatever the answer. -/
theorem closeFile_closes {s : Client σ} {pathname : CString} (opened : Open pathname s) :
    (closeFile env (some pathname) s).Post (fun _ => AllClosed) (fun _ => AllClosed)
      (fun _ => True) := by
  obtain ⟨exchange, fd, before, between, first, hands, quiet, is, found⟩ := opened
  have closed : AllClosed (s.exchanged env (.CLOSE ⟨fd⟩)) := by
    unfold AllClosed
    rw [exchanged, is, List.append_assoc]
    exact first.append (closesAll_between quiet hands)
  simp only [closeFile, getDescriptor, post_bind, post_orFail, post_get, post_send]
  refine ⟨fun null => absurd null (Option.some_ne_none _), fun path _ =>
    ⟨fun absent => ?_, fun other is_other => ?_⟩⟩
  · cases found.symm.trans absent
  · obtain rfl := Option.some.inj (found.symm.trans is_other)
    cases (env.exchange (.CLOSE ⟨fd⟩) s.world).1 with
    | none => exact closed
    | some response =>
        cases response with
        | OK =>
            simp only [post_bind, post_get]
            cases (s.exchanged env (.CLOSE ⟨fd⟩)).fileDescriptorTable.remove
              (Filename.ofString (some pathname)) with
            | none => trivial
            | some table => exact closed
        | _ => exact closed

theorem bracketed_closed : Bracketed env (AllClosed : Client σ → Prop) Open where
  outside := undisturbed_closed
  inside := undisturbed_open
  opens := fun _ pathname flags closed => openFile_opens closed pathname flags
  closes := fun _ _ opened => closeFile_closes opened

end Client

/-! ## The program -/

namespace CommandLine

open Client

variable {σ : Type} (m : Machine σ)

theorem closed_handle (h : OptHandler) : Keeps (fun s => AllClosed s.client) (handle m h) := by
  refine keeps_handle bracketed_closed.guarded (fun s t same closed => ?_) h
  rwa [AllClosed, same]

/-- However the program ends and whatever the server has answered, each file that it has
    opened has been closed again before it has opened another one. -/
theorem every_open_closed (h : OptHandler) (world : σ) :
    (handle m h ⟨.init world, none⟩).Post (fun _ t => ClosesAll t.client.exchanges)
      (fun _ t => ClosesAll t.client.exchanges) (fun _ => True) :=
  closed_handle m h _ closesAll_nil

end CommandLine

/-! ## What is left open on the server -/

open FileSystem

namespace Client

variable {codec : Codec} {σ : Type} {env : Environment σ} {fs : σ → FileSystem codec} {pid : Pid}

def NothingOpen (fs : σ → FileSystem codec) (pid : Pid) : Client σ → Prop :=
  AgreesWith fs pid fun _ => none

def OneOpen (fs : σ → FileSystem codec) (pid : Pid) (pathname : CString) (s : Client σ) : Prop :=
  ∃ fd, AgreesWith fs pid
    (Function.update (fun _ => none) (Filename.ofString (some pathname)) (some fd)) s

/-- What neither opens nor closes leaves the descriptors alone, on both sides. -/
theorem undisturbed_agreesWith (served : ServedBy env fs pid) (table : Filename → Option Int) :
    Undisturbed env (AgreesWith fs pid table) where
  exchanged := by
    intro s request steady agrees accepted
    obtain ⟨before, answer, response, -, -, accepts, effect⟩ := accepted_exchange served accepted
    obtain ⟨agrees, same⟩ := agrees before
    exact ⟨agrees.unmoved rfl rfl (steady.unmoved accepts effect), same⟩
  flags := by
    intro s agrees accepted
    obtain ⟨agrees, same⟩ := agrees accepted
    exact ⟨agrees.unmoved rfl rfl fun _ => Iff.rfl, same⟩
  save := by
    intro s filename dirname buf agrees accepted
    obtain ⟨agrees, same⟩ := agrees accepted
    exact ⟨agrees.unmoved rfl rfl (served.save filename dirname buf s.world).unmoved, same⟩

theorem undisturbed_oneOpen (served : ServedBy env fs pid) (pathname : CString) :
    Undisturbed env (OneOpen fs pid pathname) where
  exchanged := by
    rintro s request steady ⟨fd, agrees⟩
    exact ⟨fd, (undisturbed_agreesWith served _).exchanged s request steady agrees⟩
  flags := by
    rintro s ⟨fd, agrees⟩
    exact ⟨fd, (undisturbed_agreesWith served _).flags s agrees⟩
  save := by
    rintro s filename dirname buf ⟨fd, agrees⟩
    exact ⟨fd, (undisturbed_agreesWith served _).save s filename dirname buf agrees⟩

theorem bracketed_nothingOpen (served : ServedBy env fs pid) :
    Bracketed env (NothingOpen fs pid) (OneOpen fs pid) where
  outside := undisturbed_agreesWith served _
  inside := undisturbed_oneOpen served
  opens := by
    intro s pathname flags agrees
    exact (openFile_agrees served agrees rfl flags).mono (fun _ _ opened => opened.2)
      (fun _ _ agrees => agrees) (fun _ _ => trivial)
  closes := by
    rintro s pathname ⟨fd, agrees⟩
    refine (closeFile_agrees served agrees (some pathname)).mono (fun _ s₁ agrees => ?_)
      (fun _ s₁ failed accepted => ?_) (fun _ _ => trivial)
    · rwa [Function.update_idem, Function.update_eq_self_iff.mpr rfl] at agrees
    · refine absurd accepted (failed.2 (Option.some_ne_none _) ?_)
      rw [Function.update_self]
      exact Option.some_ne_none _

end Client

namespace CommandLine

open Client

variable {codec : Codec} {σ : Type}

/-- When the commands have run, whichever of them has failed, and the server has accepted
    whatever it was asked for: the client has no descriptor left, and the server has none open
    for it. -/
theorem nothing_left_open (m : Machine σ) (fs : σ → FileSystem codec) (pid : Pid)
    (served : ServedBy m.toEnvironment fs pid) (world : σ)
    (none_ : ∀ n, ¬ Owns (fs world).view n pid) (queue : List OptHandlerEl) (turn : Turn)
    (s : Client σ) (run : handleCommands m none queue (.init world) = .ok turn s)
    (accepted : Accepted s.exchanges) :
    (∀ pathname, s.fileDescriptorTable.get pathname = none) ∧
      ∀ n, ¬ Owns (fs s.world).view n pid := by
  have nothing : ∀ pathname, (Client.init world).fileDescriptorTable.get pathname = none := by
    intro pathname
    cases pathname <;> rfl
  have start : NothingOpen fs pid (Client.init world) := by
    refine fun _ => ⟨⟨fun pathname => ?_, fun pathname fd found => ?_,
      fun n owns => absurd owns (none_ n), fun pathname other fd found => ?_⟩, nothing⟩
    · rw [nothing]
      rfl
    all_goals
      rw [nothing] at found
      cases found
  have kept := keeps_handleCommands (bracketed_nothingOpen served).guarded none queue _ start
  rw [run] at kept
  obtain ⟨agrees, same⟩ := kept accepted
  refine ⟨same, fun n owns => ?_⟩
  obtain ⟨pathname, found⟩ := agrees.reached n owns
  cases (same pathname).symm.trans found

/-- The machine of a client that is alone with the server. -/
def aloneMachine (pid : Pid) : Machine (FileSystem huffmanCodec) where
  toEnvironment := ApiRun.alone pid
  realpath filename _ := some filename
  opendir _ _ := none
  connect _ fs := (true, fs)
  disconnect fs := (true, fs)

/-- A file is created, which is not there to be written, and unlocked and closed. -/
theorem nothing_left_open_sent : ∃ turn s,
    handleCommands (aloneMachine 5) none [⟨'W'.toUInt8, [102]⟩] (.init (.init 1 4 .fifo)) =
      .ok turn s ∧ s.exchanges.length = 3 ∧ Accepted s.exchanges ∧
      (∀ pathname, s.fileDescriptorTable.get pathname = none) ∧
      ∀ n, ¬ Owns (FileSystem.view s.world) n 5 := by
  have none_ : ∀ n, ¬ Owns (FileSystem.init 1 4 .fifo : FileSystem huffmanCodec).view n 5 := by
    rintro n ⟨s, live, -⟩
    rw [init_view] at live
    cases live
  have ends : (handleCommands (aloneMachine 5) none [⟨'W'.toUInt8, [102]⟩]
      (.init (.init 1 4 .fifo))).state?.any (fun s => s.exchanges.length = 3 ∧
        ∀ exchange ∈ s.exchanges, exchange.2.any (·.type ≠ .ERROR) = true) = true := by
    decide +kernel
  have returns : (handleCommands (aloneMachine 5) none [⟨'W'.toUInt8, [102]⟩]
      (.init (.init 1 4 .fifo))).value?.isSome = true := by decide +kernel
  cases run : handleCommands (aloneMachine 5) none [⟨'W'.toUInt8, [102]⟩]
      (.init (.init 1 4 .fifo)) with
  | ok turn s =>
      rw [run] at ends
      obtain ⟨three, accepted⟩ := of_decide_eq_true ends
      exact ⟨turn, s, rfl, three, accepted, nothing_left_open (aloneMachine 5) id 5
        (ApiRun.alone_served 5) _ none_ _ turn s run accepted⟩
  | error code s =>
      rw [run] at returns
      cases returns
  | fault why =>
      rw [run] at returns
      cases returns

end CommandLine

end FileStorage
