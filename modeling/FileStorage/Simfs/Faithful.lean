import FileStorage.Simfs.Contents
import FileStorage.Simfs.Refusals

/-! # Files that hold the right bytes

A predicate says which bytes are right for which name. If a descriptor that is written
through has just been opened on a file without content, and the bytes are right for the
name, then all files hold right bytes as long as they are there, and whatever is read or
evicted is right. No freed artifact is decoded on the way.
-/

namespace FileStorage

open FileSystem Program

variable {codec : Codec} {Right : Filename → List UInt8 → Prop} {v w : View codec}
  {a : Action codec} {acts : List (Action codec)} {fd : Nat} {s : SlotView}

/-- Decoding gives back the bytes that were encoded, or none at all. -/
def Codec.Truthful (codec : Codec) : Prop :=
  ∀ bytes artifact, codec.encode bytes = some artifact →
    codec.decode artifact = bytes ∨ codec.decode artifact = []

theorem huffmanCodec_truthful : huffmanCodec.Truthful := by
  intro bytes artifact encodes
  have decodes := (HuffmanTree.encoded_spec encodes).2
  split at decodes
  · exact .inl decodes
  · exact .inr decodes

/-- Every stored file has no content yet, or content that is right for its name, or content
    that is decoded to nothing. -/
structure Faithful (Right : Filename → List UInt8 → Prop) (v : View codec) : Prop where
  owned : ∃ owner, Owned owner v
  files : ∀ name f, v.file name = some f → f.directPtr = .null ∨ ∃ artifact,
    Memory.at? v.memory f.directPtr = some artifact ∧
      (codec.decode artifact ≠ [] → Right name (codec.decode artifact))

/-- What is flushed from the copy of a descriptor is right for the name, or there is
    nothing to flush. -/
def SlotView.Clean (Right : Filename → List UInt8 → Prop) (s : SlotView) : Prop :=
  s.buffer = [] ∨ s.directPtr = .null ∧ Right s.name s.buffer

def Harmless (Right : Filename → List UInt8 → Prop) (v : View codec) : Action codec → Prop
  | .flush fd _ | .tear fd => ∀ s, v.slot fd = some s → s.Clean Right
  | _ => True

theorem faithful_initial : Faithful Right (View.initial : View codec) where
  owned := ⟨fun _ => [], (fun _ _ stored => by cases stored), fun _ _ live => by cases live⟩
  files := fun _ _ stored => by cases stored

theorem Faithful.live (faithful : Faithful Right v) : Live v := by
  intro name f stored
  obtain null | ⟨artifact, found, -⟩ := faithful.files name f stored
  · exact .inl null
  · exact .inr ⟨artifact, found⟩

theorem Faithful.content (faithful : Faithful Right v) {name : Filename} {f : FileView}
    {old : codec.Artifact} (stored : v.file name = some f)
    (found : Memory.at? v.memory f.directPtr = some old) (some_ : codec.decode old ≠ []) :
    Right name (codec.decode old) := by
  obtain null | ⟨artifact, found', holds⟩ := faithful.files name f stored
  · rw [null] at found
    cases found
  · obtain rfl := Option.some.inj (found.symm.trans found')
    exact holds some_

theorem ne_nil_of_encodes {bytes : List UInt8} {artifact : codec.Artifact}
    (encodes : codec.encode bytes = some artifact) : bytes ≠ [] := by
  rintro rfl
  rw [codec.encode_nil] at encodes
  cases encodes

theorem Faithful.apply (truthful : codec.Truthful) (faithful : Faithful Right v)
    (enabled : v.Enabled a) (harmless : Harmless Right v a) : Faithful Right (v.apply a) := by
  obtain ⟨owner, owned⟩ := faithful.owned
  refine ⟨owned.apply enabled, fun name f' stored => ?_⟩
  by_cases touched : a.Touches v name
  · cases a with
    | create other =>
        obtain rfl : other = name := touched
        obtain rfl := Option.some.inj ((Function.update_self _ _ v.file).symm.trans stored)
        exact .inl rfl
    | vanish other =>
        obtain rfl : other = name := touched
        cases (Function.update_self _ _ v.file).symm.trans stored
    | spoil other =>
        obtain rfl : other = name := touched
        obtain ⟨f, -, rfl⟩ := View.file_of_changeFile stored
        exact .inl (by simp)
    | reread other new =>
        obtain rfl : other = name := touched
        obtain ⟨f, old, found, live, encodes⟩ := enabled
        obtain ⟨f₁, found₁, rfl⟩ := View.file_of_changeFile stored
        rw [if_pos rfl]
        simp only [View.apply, found, Option.elim_some]
        refine .inr ⟨new, Memory.at?_append_self _ new (Memory.length_free _ _), fun some_ => ?_⟩
        rw [(truthful _ _ encodes).resolve_right some_]
        exact faithful.content found live (ne_nil_of_encodes encodes)
    | flush fd new =>
        obtain ⟨s, live, rfl⟩ := touched
        obtain ⟨s₁, content, live₁, -, some_, appended, -, encodes⟩ := enabled
        obtain rfl := Option.some.inj (live.symm.trans live₁)
        obtain ⟨null, holds⟩ := (harmless s live).resolve_left some_
        rw [null] at appended
        obtain rfl := Option.some.inj appended
        simp only [View.apply, live] at stored ⊢
        obtain ⟨f, -, rfl⟩ := Option.map_eq_some_iff.mp
          ((Function.update_self s.name _ v.file).symm.trans stored)
        refine .inr ⟨new, Memory.at?_append_self _ new (Memory.length_free _ _), fun some_ => ?_⟩
        rw [(truthful _ _ encodes).resolve_right some_]
        exact holds
    | tear fd =>
        obtain ⟨s, old, live, -, found, big⟩ := enabled
        obtain empty | ⟨null, -⟩ := harmless s live
        · rw [empty, List.append_nil] at big
          exact absurd (codec.decode_small old) (Nat.not_lt.mpr big)
        · rw [null] at found
          cases found
    | _ => exact touched.elim
  · obtain ⟨f, found, ptr, at_⟩ := SameContent.apply owned enabled touched f' stored
    rw [ptr, at_]
    exact faithful.files name f found

theorem Faithful.trace (truthful : codec.Truthful) (faithful : Faithful Right v)
    (trace : (viewSystem codec).Trace v acts w)
    (harmless : (viewSystem codec).Meets (Harmless Right) v acts) : Faithful Right w :=
  trace.keeps (fun _ _ faithful enabled harmless => faithful.apply truthful enabled harmless)
    harmless faithful

theorem Faithful.trace_quiet (truthful : codec.Truthful) (faithful : Faithful Right v)
    (trace : (viewSystem codec).Trace v acts w)
    (quiet : ∀ a ∈ acts, ∀ u : View codec, Harmless Right u a) : Faithful Right w :=
  faithful.trace truthful trace (.of_forall fun u a member => quiet a member u)

variable {fs fs' : FileSystem codec} {pid : Pid} {now : Int} {name : Filename}

theorem Faithful.file (faithful : Faithful Right fs.view) {inode : Inode}
    (present : fs.file name = some inode) (some_ : fs.content inode ≠ []) :
    Right name (fs.content inode) := by
  unfold FileSystem.content at some_ ⊢
  cases found : Memory.at? fs.memory inode.directPtr with
  | none =>
      rw [found] at some_
      exact absurd rfl some_
  | some artifact =>
      rw [found] at some_
      exact faithful.content (view_file present) found some_

/-! ## Calls that neither read nor write -/

def Event.plain : Event → Bool
  | .read .. | .write .. => false
  | _ => true

theorem Event.Does.quiet {event : Event} (plain : event.plain = true)
    (does : event.Does fs fs' acts) (u : View codec) : ∀ a ∈ acts, Harmless Right u a := by
  intro a member
  -- reads and writes are the only steps that flush
  cases does.mayDo a member <;> trivial

theorem Faithful.step (truthful : codec.Truthful) (faithful : Faithful Right fs.view)
    {event : Event} (possible : event.Possible fs) (plain : event.plain = true)
    (result : (event.call fs).state? = some fs') : Faithful Right fs'.view := by
  obtain ⟨acts, does, performs⟩ := Step.performed possible result
  exact faithful.trace_quiet truthful performs fun a member u => does.quiet plain u a member

/-! ## Descriptors that are used with care -/

/-- A descriptor as the one who has opened it knows it. It is fresh if the open has created
    the file and nothing was written through it since. -/
structure Handle where
  name : Filename
  fd : Int
  fresh : Bool
  deriving DecidableEq

/-- The descriptor is there, and its copy of the file has nothing to flush. A fresh one
    leads to no content. -/
def Handle.Held (h : Handle) (pid : Pid) (v : View codec) : Prop :=
  ∃ s, v.slot (toUnsigned32 h.fd) = some s ∧ s.owner = pid ∧ s.name = h.name ∧ s.buffer = [] ∧
    (h.fresh = true → s.directPtr = .null)

variable {h : Handle}

/-- The action writes to the descriptor or closes it. -/
def Action.Disturbs (pid : Pid) (fd : Nat) : Action codec → Prop
  | .store other _ | .close other => other = fd
  | .forget other | .leave other => other = pid
  | _ => False

theorem Handle.Held.apply (held : h.Held pid v) (enabled : v.Enabled a)
    (careful : ¬ a.Disturbs pid (toUnsigned32 h.fd)) : h.Held pid (v.apply a) := by
  obtain ⟨s, live, own, named, empty, null⟩ := held
  suffices same : (v.apply a).slot (toUnsigned32 h.fd) = some s from
    ⟨s, same, own, named, empty, null⟩
  cases a with
  | attach fd name other =>
      have apart : toUnsigned32 h.fd ≠ fd := by
        rintro rfl
        cases live.symm.trans enabled.1
      exact (Function.update_of_ne apart _ _).trans live
  | close fd =>
      have apart : toUnsigned32 h.fd ≠ fd := fun same => careful same.symm
      simp only [View.apply]
      split
      · exact live
      · exact (Function.update_of_ne apart _ _).trans live
  | store fd bytes =>
      have apart : toUnsigned32 h.fd ≠ fd := fun same => careful same.symm
      exact (Function.update_of_ne apart _ _).trans live
  | flush fd new =>
      obtain ⟨t, content, live', -, some_, -⟩ := enabled
      have apart : toUnsigned32 h.fd ≠ fd := by
        rintro rfl
        obtain rfl := Option.some.inj (live.symm.trans live')
        exact some_ empty
      simp only [View.apply, live']
      exact (Function.update_of_ne apart _ _).trans live
  | tear fd =>
      obtain ⟨t, old, live', -, -, big⟩ := enabled
      have apart : toUnsigned32 h.fd ≠ fd := by
        rintro rfl
        obtain rfl := Option.some.inj (live.symm.trans live')
        rw [empty, List.append_nil] at big
        exact absurd (codec.decode_small old) (Nat.not_lt.mpr big)
      simp only [View.apply, live']
      exact (Function.update_of_ne apart _ _).trans live
  | forget other | leave other =>
      have stays : s.owner ≠ other := fun is => careful (is.symm.trans own)
      simp only [View.apply, live, Option.filter_some, stays, ne_eq, not_false_eq_true, decide_true,
        if_true]
  | _ => exact live

theorem Handle.Held.trace (held : h.Held pid v) (trace : (viewSystem codec).Trace v acts w)
    (careful : ∀ a ∈ acts, ¬ a.Disturbs pid (toUnsigned32 h.fd)) : h.Held pid w :=
  trace.keeps (I := Handle.Held h pid)
    (fun _ _ held enabled careful => held.apply enabled careful)
    (.of_forall fun _ a member => careful a member) held

def Event.Careless : Event → Prop
  | .write .. | .close .. | .removeSession .. => True
  | _ => False

theorem FileSystem.Evictions.all {P : Action codec → Prop} {evs : List (Action codec)}
    (evictions : Evictions evs) (reread : ∀ name new, P (.reread name new))
    (vanish : ∀ name, P (.vanish name)) : ∀ a ∈ evs, P a := by
  induction evictions with
  | nil => exact fun _ member => absurd member List.not_mem_nil
  | cons name new _ ih =>
      exact List.forall_mem_cons.mpr ⟨reread name new, List.forall_mem_cons.mpr ⟨vanish name, ih⟩⟩

theorem FileSystem.EvictionFails.all {P : Action codec → Prop} (fails : EvictionFails acts)
    (reread : ∀ name new, P (.reread name new)) (spoil : ∀ name, P (.spoil name))
    (vanish : ∀ name, P (.vanish name)) : ∀ a ∈ acts, P a := by
  obtain rfl | ⟨name, rfl | ⟨new, rfl | rfl⟩⟩ := fails <;> simp [reread, spoil, vanish]

theorem FileSystem.StoreFails.all {P : Action codec → Prop} {fd : Nat} {bytes : List UInt8}
    (fails : StoreFails fd bytes acts fs') (store : P (.store fd bytes)) (tear : P (.tear fd))
    (flush : ∀ new, P (.flush fd new)) : ∀ a ∈ acts, P a := by
  obtain rfl | ⟨rfl, -⟩ | rfl | ⟨new, rfl, -⟩ := fails <;> simp [store, tear, flush]

theorem Event.Does.careless {event : Event} (does : event.Does fs fs' acts) (member : a ∈ acts)
    {fd : Nat} (disturbs : a.Disturbs pid fd) :
    event.Careless ∧ (event.pid = pid ∨ Owns fs.view fd event.pid) := by
  cases event with
  | write fd' buf other now =>
      obtain ⟨evs, rest, evictions, rfl, does⟩ := does
      refine ⟨trivial, .inr ?_⟩
      rcases List.mem_append.mp member with evicts | stores
      · exact (evictions.all (P := fun a => ¬ a.Disturbs pid fd) (fun _ _ never => never)
          (fun _ never => never) a evicts disturbs).elim
      · rcases does with (fails | ⟨bytes, -, fails, owns⟩) | ⟨bytes, new, -, owns, rfl⟩
        · exact (EvictionFails.all (P := fun a => ¬ a.Disturbs pid fd) fails
            (fun _ _ never => never) (fun _ never => never) (fun _ never => never) a stores
            disturbs).elim
        · have owned : ∀ a ∈ rest, a.Disturbs pid fd → Owns fs.view fd other :=
            StoreFails.all fails (fun same => same ▸ owns) (fun never => never.elim)
              fun _ never => never.elim
          exact owned a stores disturbs
        · simp at stores
          rcases stores with rfl | rfl
          · exact disturbs ▸ owns
          · exact disturbs.elim
  | close fd' other now =>
      obtain rfl | ⟨owns, rfl⟩ := does
      · cases member
      · obtain rfl := List.mem_singleton.mp member
        exact ⟨trivial, .inr (disturbs ▸ owns)⟩
  | removeSession other now =>
      cases does.mayDo a member with
      | forget => exact ⟨trivial, .inl disturbs⟩
      | _ => exact disturbs.elim
  | _ => cases does.mayDo a member <;> exact False.elim disturbs

/-- A descriptor is left alone by everybody else, and by its owner unless he writes or closes
    descriptors. -/
theorem Handle.Held.step (held : h.Held pid fs.view) {event : Event}
    (possible : event.Possible fs) (careful : event.pid = pid → ¬ event.Careless)
    (result : (event.call fs).state? = some fs') : h.Held pid fs'.view := by
  obtain ⟨acts, does, performs⟩ := Step.performed possible result
  refine held.trace performs fun a member disturbs => ?_
  obtain ⟨careless, mine | ⟨t, live', own'⟩⟩ := does.careless member disturbs
  · exact careful mine careless
  · obtain ⟨s, live, own, -⟩ := held
    obtain rfl := Option.some.inj (live.symm.trans live')
    exact careful (own'.symm.trans own) careless

/-! ## Opening -/

def Created (v : View codec) (name : Filename) : Prop :=
  ∃ f, v.file name = some f ∧ f.directPtr = .null

theorem created_locked {lock : List (Action codec)} (created : Created v name)
    (locks : lock = [] ∨ lock = [.request name, .grant name pid, .settle name])
    (trace : (viewSystem codec).Trace v lock w) : Created w name := by
  obtain rfl | rfl := locks
  · cases trace
    exact created
  · obtain ⟨f, stored, null⟩ := created
    obtain _ | ⟨-, _ | ⟨-, _ | ⟨-, _ | -⟩⟩⟩ := trace
    simp only [Created, viewSystem, View.apply, View.changeFile_self, stored, Option.map_some]
    exact ⟨_, rfl, null⟩

theorem toUnsigned32_of_open {fd : Nat} (small : fd < maxOpenFiles) : toUnsigned32 fd = fd := by
  simp only [toUnsigned32, maxOpenFiles] at small ⊢
  omega

/-- A new descriptor of a file. -/
theorem held_attach {fresh : Bool} (enabled : v.Enabled (.attach fd name pid))
    (created : fresh = true → Created v name) :
    Handle.Held ⟨name, fd, fresh⟩ pid (v.apply (.attach fd name pid)) := by
  obtain ⟨-, small, f, stored, -⟩ := enabled
  rw [Handle.Held, toUnsigned32_of_open small]
  refine ⟨_, (Function.update_self fd _ v.slot).trans (by rw [stored]; rfl), rfl, rfl, rfl, ?_⟩
  intro is
  obtain ⟨f', stored', null⟩ := created is
  obtain rfl := Option.some.inj (stored.symm.trans stored')
  exact null

theorem trace_attach (performs : (viewSystem codec).Trace v [.attach fd name pid] w) :
    v.Enabled (.attach fd name pid) ∧ w = v.apply (.attach fd name pid) := by
  obtain _ | ⟨enabled, _ | -⟩ := performs
  exact ⟨enabled, rfl⟩

/-- The descriptor of an open is fresh if the open has created the file. An open that waits
    has created none. -/
theorem fileSystemOpen_held (fs : FileSystem codec) (name : Filename) (flags : Nat) (pid : Pid)
    (now : Int) :
    (fileSystemOpen name flags pid now fs).Post
      (fun progress fs' => match progress with
        | .done fd => fd < maxOpenFiles ∧ Handle.Held ⟨name, fd, flags.testBit 0⟩ pid fs'.view
        | .waiting => flags.testBit 0 = false)
      (fun _ _ => True) (fun _ => False) := by
  refine (fileSystemOpen_performs fs name flags pid now).mono ?_ (fun _ _ _ => trivial)
    (fun _ never => never)
  rintro (fd | _) fs' returns
  · obtain ⟨pre, lock, opening, locks, performs⟩ := returns
    obtain ⟨v, opened, rest⟩ := ActionSystem.Trace.of_append performs
    obtain ⟨w, locked, attached⟩ := ActionSystem.Trace.of_append rest
    obtain ⟨enabled, ends⟩ := trace_attach attached
    rw [ends]
    refine ⟨enabled.2.1, held_attach enabled fun create => ?_⟩
    refine created_locked ?_ (locks.imp_right And.right) locked
    obtain ⟨none_, -⟩ | ⟨-, rfl⟩ := opening
    · cases none_.symm.trans create
    · obtain _ | ⟨-, _ | -⟩ := opened
      exact ⟨_, Function.update_self .., rfl⟩
  · obtain ⟨pre, generation, opening, -, performs⟩ := returns
    obtain ⟨none_, -⟩ | ⟨-, rfl⟩ := opening
    · exact none_
    · -- nobody refers to a file that has just been created
      obtain _ | ⟨-, _ | ⟨-, _ | ⟨⟨f, found, -, waits⟩, -⟩⟩⟩ := performs
      simp only [viewSystem, View.apply, View.changeFile_self, Function.update_self,
        Option.map_some, Option.some.injEq] at found
      subst found
      exact absurd waits.1 (by simp [FileView.new])

theorem wakeUp_held {waiter : Waiter} (waits : waiter ∈ fs.blocked) (now : Int) :
    (wakeUp waiter now fs).Post
      (fun progress fs' => ∀ fd, progress = .done (some fd) → fd < maxOpenFiles ∧
        Handle.Held ⟨waiter.name, fd, false⟩ waiter.pid fs'.view)
      (fun _ _ => True) (fun why => why = .inodeFreed) := by
  refine (wakeUp_performs waits now).mono ?_ (fun _ _ _ => trivial) (fun _ freed => freed)
  rintro - fs' ⟨returns, -⟩ fd rfl
  have performs : fs.Performs ([.unblock waiter, .grant waiter.name waiter.pid,
    .settle waiter.name] ++ [.attach fd waiter.name waiter.pid]) fs' := returns
  obtain ⟨v, -, attached⟩ := ActionSystem.Trace.of_append performs
  obtain ⟨enabled, ends⟩ := trace_attach attached
  rw [ends]
  exact ⟨enabled.2.1, held_attach enabled fun is => by cases is⟩

/-! ## Reading -/

theorem Faithful.read (truthful : codec.Truthful) (faithful : Faithful Right fs.view)
    (held : h.Held pid fs.view) (now : Int) :
    (fileSystemRead h.fd pid now fs).Post
      (fun data fs' => Right h.name data ∧ Faithful Right fs'.view)
      (fun _ fs' => Faithful Right fs'.view) (fun why => why ≠ .decodeFreed) := by
  obtain ⟨s, live, -, named, empty, -⟩ := held
  have clean : ∀ t, fs.view.slot (toUnsigned32 h.fd) = some t → t.Clean Right := by
    intro t live'
    obtain rfl := Option.some.inj (live.symm.trans live')
    exact .inl empty
  have same : ∀ copy, fs.slot (toUnsigned32 h.fd) = some { owner := pid, inode := copy } →
      copy.name = h.name := by
    intro copy slot
    obtain rfl := Option.some.inj (live.symm.trans (view_slot slot))
    exact named
  -- the decoding of the file leaves the copy as it is
  have rereads : ∀ {other new last fs'}, last = .tear (toUnsigned32 h.fd) ∨
      (∃ flushed, last = .flush (toUnsigned32 h.fd) flushed) →
      fs.Performs [.reread other new, last] fs' → Faithful Right fs'.view := by
    rintro other new last fs' (rfl | ⟨flushed, rfl⟩) performs
    · exact faithful.trace truthful performs ⟨trivial, clean, trivial⟩
    · exact faithful.trace truthful performs ⟨trivial, clean, trivial⟩
  have quiet : ∀ {a fs'}, fs.Performs [a] fs' → (∀ u : View codec, Harmless Right u a) →
      Faithful Right fs'.view := fun {a} _ performs harmless =>
    faithful.trace_quiet truthful performs fun b member u => by
      obtain rfl := List.mem_singleton.mp member
      exact harmless u
  refine (fileSystemRead_performs fs h.fd pid now).mono ?_ ?_ ?_
  · rintro _ fs' ⟨copy, f, old, new, slot, stored, found, rfl, reads⟩
    have rightful : ∀ acts, fs.Performs (.reread copy.name new :: acts) fs' →
        Right h.name (codec.decode old) := by
      intro acts performs
      obtain _ | ⟨⟨f', old', stored', found', encodes⟩, -⟩ := performs
      obtain rfl := Option.some.inj (stored.symm.trans stored')
      obtain rfl := Option.some.inj (found.symm.trans found')
      exact same copy slot ▸ faithful.content stored found (ne_nil_of_encodes encodes)
    obtain ⟨performs, -⟩ | ⟨flushed, performs⟩ := reads
    · exact ⟨rightful _ performs, quiet performs fun _ => trivial⟩
    · exact ⟨rightful _ performs, rereads (.inr ⟨flushed, rfl⟩) performs⟩
  · rintro - fs' (performs | ⟨copy, -, performs | ⟨new, performs | performs | ⟨flushed, performs⟩⟩⟩)
    · rwa [performs.view_eq]
    · exact quiet performs fun _ => trivial
    · exact quiet performs fun _ => trivial
    · exact rereads (.inl rfl) performs
    · exact rereads (.inr ⟨flushed, rfl⟩) performs
  · intro why freed is
    obtain ⟨copy, -, gone | ⟨new, fs₁, performs, t, id, live', -, -, some_, -⟩⟩ := freed is
    · exact faithful.live.not_freedFile copy.name gone
    · rw [performs.view_single] at live'
      obtain rfl := Option.some.inj (live.symm.trans live')
      exact some_ empty

/-! ## Writing -/

theorem Handle.Held.clean (held : h.Held pid v) (fresh : h.fresh = true) {bytes : List UInt8}
    (rightful : Right h.name bytes) :
    ∀ s, (v.apply (.store (toUnsigned32 h.fd) bytes)).slot (toUnsigned32 h.fd) = some s →
      s.Clean Right := by
  obtain ⟨s, live, -, named, empty, null⟩ := held
  intro t live'
  obtain ⟨s', found, rfl⟩ := View.slot_of_changeSlot live'
  obtain rfl := Option.some.inj (live.symm.trans found)
  rw [if_pos rfl]
  refine .inr ⟨null fresh, ?_⟩
  change Right s.name (s.buffer ++ bytes)
  rwa [empty, named]

theorem Handle.Held.stores (held : h.Held pid v) (fresh : h.fresh = true) {bytes : List UInt8}
    (rightful : Right h.name bytes) {fs' : FileSystem codec}
    (does : StoreFails (toUnsigned32 h.fd) bytes acts fs' ∨
      ∃ new, acts = [.store (toUnsigned32 h.fd) bytes, .flush (toUnsigned32 h.fd) new]) :
    (viewSystem codec).Meets (Harmless Right) v acts := by
  have clean := held.clean fresh rightful
  obtain (rfl | ⟨rfl, -⟩ | rfl | ⟨new, rfl, -⟩) | ⟨new, rfl⟩ := does
  · trivial
  · exact ⟨trivial, trivial⟩
  · exact ⟨trivial, clean, trivial⟩
  · exact ⟨trivial, clean, trivial⟩
  · exact ⟨trivial, clean, trivial⟩

structure EvictsRight (Right : Filename → List UInt8 → Prop) (s : WriteState codec) : Prop where
  faithful : Faithful Right s.fileSystem.view
  evicted : ∀ file ∈ s.evictedList, Right file.name file.bytes

theorem keeps_rtsEvict (truthful : codec.Truthful) (now : Int) :
    Keeps (EvictsRight Right) (WriteState.rtsEvict now : Program _ _ (WriteState codec) Unit) := by
  rintro s ⟨faithful, evicted⟩
  simp only [WriteState.rtsEvict, WriteState.onFileSystem, post_bind, post_zoom, post_modify,
    post_get]
  refine post_ofExcept (fun inode _ => ?_) (fun _ _ => ⟨faithful, evicted⟩)
  refine (rtsReadInode_performs _ inode.name now).mono ?_ ?_ (fun _ _ => trivial)
  · rintro data fs₁ ⟨f, old, new, stored, found, rfl, some_, read⟩
    have faithful₁ : Faithful Right fs₁.view :=
      faithful.trace_quiet truthful read (by simp [Harmless])
    have evicted₁ : ∀ file ∈ (⟨inode.name, codec.decode old⟩ :: s.evictedList : List EvictedFile),
        Right file.name file.bytes :=
      List.forall_mem_cons.mpr ⟨faithful.content stored found some_, evicted⟩
    refine (rtsRemoveInode_performs fs₁ inode.name).mono ?_ ?_ (fun _ _ => trivial)
    · exact fun _ fs₂ removed =>
        ⟨faithful₁.trace_quiet truthful removed (by simp [Harmless]), evicted₁⟩
    · rintro - fs₂ (same | removed)
      · exact ⟨by rwa [same.view_eq], evicted₁⟩
      · exact ⟨faithful₁.trace_quiet truthful removed (by simp [Harmless]), evicted₁⟩
  · rintro - fs₁ (same | spoilt)
    · exact ⟨by rw [same.view_eq]; exact faithful, evicted⟩
    · exact ⟨faithful.trace_quiet truthful spoilt (by simp [Harmless]), evicted⟩

theorem keeps_makeRoom (truthful : codec.Truthful) (finalCount now : Int) (bound : Nat) :
    Keeps (EvictsRight Right)
      (WriteState.makeRoom finalCount now bound : Program _ _ (WriteState codec) Unit) := by
  induction bound with
  | zero => exact .fault _
  | succ bound ih =>
      refine .bind .get fun s => .ite ?_ (.pure _)
      exact .bind (.failIf _ _) fun _ => .bind (.failIf _ _) fun _ =>
        .bind (keeps_rtsEvict truthful now) fun _ => ih

/-- The files that had to make room for a write are right. -/
theorem fileSystemWrite_evicts (truthful : codec.Truthful) (faithful : Faithful Right fs.view)
    (fd : Int) (buf : Option (List UInt8)) (pid : Pid) (now : Int) :
    (fileSystemWrite fd buf pid now { fileSystem := fs, evictedList := [] }).Post
      (fun _ s => ∀ file ∈ s.evictedList, Right file.name file.bytes) (fun _ _ => True)
      (fun _ => True) := by
  simp only [fileSystemWrite, encodeBuffer, WriteState.onFileSystem, post_bind, post_zoom,
    post_orFail, post_ite, post_get, post_failIf]
  refine ⟨fun _ => trivial, fun bytes _ => ⟨fun _ => trivial, fun _ => ⟨fun _ => trivial,
    fun artifact _ => ⟨fun _ => trivial, fun _ => ?_⟩⟩⟩⟩
  have start : EvictsRight Right ({ fileSystem := fs, evictedList := [] } : WriteState codec) :=
    ⟨faithful, fun _ member => absurd member List.not_mem_nil⟩
  refine (keeps_makeRoom truthful _ now _ _ start).mono (fun _ s kept => ?_)
    (fun _ _ _ => trivial) (fun _ _ => trivial)
  cases writeDescriptor fd buf pid now s.fileSystem with
  | ok _ _ => exact kept.evicted
  | error _ _ => trivial
  | fault _ => trivial

theorem Evictions.harmless {evs : List (Action codec)} (evictions : Evictions evs)
    (u : View codec) : ∀ a ∈ evs, Harmless Right u a :=
  evictions.all (fun _ _ => trivial) fun _ => trivial

theorem Faithful.write (truthful : codec.Truthful) (faithful : Faithful Right fs.view)
    (held : h.Held pid fs.view) (fresh : h.fresh = true) {buf : Option (List UInt8)}
    (rightful : ∀ bytes, buf = some bytes → Right h.name bytes) (now : Int) :
    (fileSystemWrite h.fd buf pid now { fileSystem := fs, evictedList := [] }).Post
      (fun _ s => Faithful Right s.fileSystem.view) (fun _ s => Faithful Right s.fileSystem.view)
      (fun why => why ≠ .decodeFreed) := by
  have after : ∀ {evs acts : List (Action codec)} {fs' : FileSystem codec}, Evictions evs →
      (EvictionFails acts ∨ ∃ bytes, buf = some bytes ∧
        (StoreFails (toUnsigned32 h.fd) bytes acts fs' ∨
          ∃ new, acts = [.store (toUnsigned32 h.fd) bytes, .flush (toUnsigned32 h.fd) new])) →
      fs.Performs (evs ++ acts) fs' → Faithful Right fs'.view := by
    intro evs acts fs' evictions does performs
    obtain ⟨v, evicted, rest⟩ := ActionSystem.Trace.of_append performs
    have faithful₁ := faithful.trace_quiet truthful evicted
      fun a member u => Evictions.harmless evictions u a member
    obtain fails | ⟨bytes, given, stores⟩ := does
    · exact faithful₁.trace_quiet truthful rest fun a member u =>
        fails.all (fun _ _ => trivial) (fun _ => trivial) (fun _ => trivial) a member
    · have still : h.Held pid v := by
        rw [Handle.Held, evictions.slot_eq evicted]
        exact held
      exact faithful₁.trace truthful rest (still.stores fresh (rightful bytes given) stores)
  refine (fileSystemWrite_performs _ h.fd buf pid now).mono ?_ ?_ ?_
  · rintro - s ⟨evs, bytes, new, given, evictions, -, performs⟩
    exact after evictions (.inr ⟨bytes, given, .inr ⟨new, rfl⟩⟩) performs
  · rintro - s ⟨evs, acts, evictions, fails | ⟨bytes, given, fails, -⟩, performs⟩
    · exact after evictions (.inl fails) performs
    · exact after evictions (.inr ⟨bytes, given, .inl fails⟩) performs
  · intro why freed is
    obtain ⟨evs, v, evictions, evicted, ⟨other, gone⟩ | ⟨-, bytes, u, stored, gone⟩⟩ := freed is
    · exact (faithful.trace_quiet truthful evicted
        fun a member u => Evictions.harmless evictions u a member).live.not_freedFile other gone
    · obtain ⟨s, live, -, -, -, null⟩ := held
      obtain ⟨t, id, live', ptr, -⟩ := gone
      obtain _ | ⟨-, _ | -⟩ := stored
      obtain ⟨s', found, rfl⟩ := View.slot_of_changeSlot live'
      have kept : v.slot (toUnsigned32 h.fd) = some s := by
        rw [evictions.slot_eq evicted]
        exact live
      obtain rfl := Option.some.inj (kept.symm.trans found)
      rw [if_pos rfl] at ptr
      cases (null fresh).symm.trans ptr

end FileStorage
