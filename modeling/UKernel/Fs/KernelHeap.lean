import UKernel.Fs.ListRuns

/-! # The heap of the inodes

`inode_open` allocates an inode while the page directory of the task is null, so in the kernel's
heap, and `inode_close` frees it there. `file_create` does not: the inode of a file that a user
process makes lies in the heap of that process, and closing the file fails the assertion of
`sys_free`. In every run in which no user process makes a file the open inodes lie in the kernel's
heap and the assertion holds (`UKernel.Fs.inodes_in_kernel_heap`).
-/

namespace UKernel.Fs

open UKernel.Library

variable {part : Partition} {α β : Type}

/-! ## The assertion of `sys_free` -/

/-- A call in which the assertion of `sys_free` about the kernel's heap never fails. -/
abbrev NoHeapFault (call : FsCall part α) : Prop := Avoids .heapAssertion call

section

variable (ptr dir : Ptr) (inode dirInode : Inode) (block inodeNo : Word) (buf : Memory)
  (pDe : DirEntry)
  (bitIdx blockIdx : Nat) (value : Bool)

theorem scan_avoids {n : Nat} (btmp : Bitmap n) (cnt : Nat) :
    btmp.scan cnt ≠ .error .heapAssertion := by
  refine except_bind_avoids (require_avoids (by decide)) fun _ => ?_
  dsimp only
  split
  · exact pure_avoids _
  · split
    · exact pure_avoids _
    · exact pure_avoids _

theorem inodeLocate_avoids (n : Nat) : inodeLocate part n ≠ .error .heapAssertion :=
  except_bind_avoids (require_avoids (by decide)) fun _ => pure_avoids _

theorem createDirEntry_avoids (filename : List Byte) (fileType : Word) (entry : DirEntry) :
    createDirEntry filename inodeNo fileType entry ≠ .error .heapAssertion :=
  except_bind_avoids (require_avoids (by decide)) fun _ => pure_avoids _

theorem pathParse_avoids (pathname : List Byte) : pathParse pathname ≠ .error .heapAssertion := by
  unfold pathParse
  dsimp only
  split
  · intro ran
    cases ran
  · exact pure_avoids _

theorem pathNext_avoids (subPath : Option (List Byte)) :
    pathNext subPath ≠ .error .heapAssertion := by
  cases subPath with
  | none => exact pure_avoids _
  | some path => exact pathParse_avoids path

theorem depthLoop_avoids (fuel : Nat) (name : List Byte) (p : Option (List Byte)) (depth : Nat) :
    depthLoop fuel name p depth ≠ .error .heapAssertion := by
  induction fuel generalizing name p depth with
  | zero =>
      intro ran
      cases ran
  | succ fuel ih =>
      unfold depthLoop
      split
      · exact pure_avoids _
      · exact except_bind_avoids (pathNext_avoids p) fun _ => ih _ _ _

theorem pathDepthCnt_avoids (pathname : List Byte) :
    pathDepthCnt pathname ≠ .error .heapAssertion :=
  except_bind_avoids (pathParse_avoids pathname) fun _ => depthLoop_avoids _ _ _ _

theorem afterLastSlash_avoids (pathname : List Byte) :
    afterLastSlash pathname ≠ .error .heapAssertion := by
  unfold afterLastSlash
  split
  · exact pure_avoids _
  · intro ran
    cases ran

theorem deref_noHeapFault : NoHeapFault (deref ptr : FsCall part Inode) := by
  grind [deref]

theorem store_noHeapFault : NoHeapFault (store ptr inode : FsCall part Unit) := by
  grind [store]

attribute [grind ←] deref_noHeapFault store_noHeapFault

theorem setBlockBit_noHeapFault : NoHeapFault (setBlockBit bitIdx value : FsCall part Unit) := by
  grind [setBlockBit]

theorem bitmapSync_noHeapFault (type : BitmapType) :
    NoHeapFault (bitmapSync bitIdx type : FsCall part Unit) := by
  cases type with
  | inodeBitmap => exact .modify _
  | blockBitmap => exact .modify _

attribute [grind ←] setBlockBit_noHeapFault bitmapSync_noHeapFault

theorem setInodeBit_noHeapFault : NoHeapFault (setInodeBit bitIdx value : FsCall part Unit) := by
  grind [setInodeBit]

theorem writeBlock_noHeapFault : NoHeapFault (writeBlock block buf : FsCall part Unit) :=
  .modify _

theorem inodeSync_noHeapFault : NoHeapFault (inodeSync inode : FsCall part Unit) := by
  intro s ran
  rw [inodeSync_run] at ran
  cases ran

attribute [grind ←] setInodeBit_noHeapFault writeBlock_noHeapFault inodeSync_noHeapFault

theorem inodeBitmapAlloc_noHeapFault :
    NoHeapFault (inodeBitmapAlloc : FsCall part (Option Nat)) := by
  refine .bind .get fun s => .bind (.lift (scan_avoids _ _)) fun found => ?_
  grind

theorem blockBitmapAlloc_noHeapFault :
    NoHeapFault (blockBitmapAlloc : FsCall part (Option Word)) := by
  refine .bind .get fun s => .bind (.lift (scan_avoids _ _)) fun found => ?_
  grind

theorem syncBlock_noHeapFault : NoHeapFault (syncBlock block : FsCall part Unit) := by
  grind [syncBlock]

attribute [grind ←] blockBitmapAlloc_noHeapFault syncBlock_noHeapFault

theorem newDirBlock_noHeapFault : NoHeapFault (newDirBlock : FsCall part (Option Word)) := by
  grind [newDirBlock]

theorem startBlock_noHeapFault :
    NoHeapFault (startBlock dir dirInode block pDe : FsCall part Bool) := by
  grind [startBlock]

attribute [grind ←] newDirBlock_noHeapFault startBlock_noHeapFault

theorem addBlock_noHeapFault :
    NoHeapFault (addBlock dir dirInode pDe blockIdx : FsCall part Bool) := by
  unfold addBlock
  refine .bind newDirBlock_noHeapFault fun found => ?_
  grind

theorem syncBlocks_noHeapFault (left : Nat) :
    NoHeapFault (syncBlocks dir dirInode pDe left blockIdx : FsCall part Bool) := by
  induction left generalizing blockIdx with
  | zero => exact .pure _
  | succ left ih => grind [syncBlocks, addBlock_noHeapFault]

theorem syncDirEntry_noHeapFault : NoHeapFault (syncDirEntry dir pDe : FsCall part Bool) :=
  .bind (deref_noHeapFault dir) fun _ => .bind (.require (by decide)) fun _ =>
    syncBlocks_noHeapFault _ _ _ _ _

theorem findOpen_noHeapFault (elems : List Ptr) :
    NoHeapFault (findOpen inodeNo elems : FsCall part (Option Ptr)) := by
  induction elems with
  | nil => exact .pure none
  | cons elem elems ih => grind [findOpen]

theorem inodeOpen_noHeapFault : NoHeapFault (inodeOpen inodeNo : FsCall part Ptr) := by
  unfold inodeOpen
  refine .bind .get fun s => .bind (findOpen_noHeapFault _ _) fun found => ?_
  split
  · exact .bind (deref_noHeapFault _) fun _ => .bind (store_noHeapFault _ _) fun _ => .pure _
  · exact .bind (.lift (inodeLocate_avoids _)) fun _ => .bind (.bind .get fun _ =>
      .bind (.modify _) fun _ => .pure _) fun _ => .bind (store_noHeapFault _ _) fun _ =>
      .bind (.modify _) fun _ => .pure _

theorem installFd_noHeapFault (g : Nat) : NoHeapFault (installFd g : FsCall part (Option Nat)) := by
  intro s ran
  cases ran

theorem listPush_noHeapFault : NoHeapFault (listPush ptr : FsCall part Unit) := by
  refine .bind .get fun s => ?_
  grind

theorem setFile_noHeapFault (g : Nat) (file : File) :
    NoHeapFault (setFile g file : FsCall part Unit) :=
  .modify _

theorem freeInode_noHeapFault : NoHeapFault (freeInode ptr : FsCall part Unit) := .modify _

theorem denyWrite_noHeapFault : NoHeapFault (denyWrite ptr : FsCall part Bool) := by
  grind [denyWrite]

attribute [grind ←] installFd_noHeapFault listPush_noHeapFault setFile_noHeapFault
  freeInode_noHeapFault denyWrite_noHeapFault inodeOpen_noHeapFault syncDirEntry_noHeapFault

theorem publishFile_noHeapFault (inodeNo fdIdx : Nat) :
    NoHeapFault (publishFile dir ptr inodeNo fdIdx : FsCall part (Option Nat)) := by
  refine .bind (deref_noHeapFault _) fun _ => .bind (inodeSync_noHeapFault _) fun _ =>
    .bind (deref_noHeapFault _) fun _ => .bind (inodeSync_noHeapFault _) fun _ =>
    .bind (bitmapSync_noHeapFault _ _) fun _ => .bind (listPush_noHeapFault _) fun _ =>
    .bind (deref_noHeapFault _) fun _ => .bind (store_noHeapFault _ _) fun _ =>
    installFd_noHeapFault _

theorem fileOpen_noHeapFault (flag : Byte) :
    NoHeapFault (fileOpen inodeNo flag : FsCall part (Option Nat)) := by
  refine .bind .get fun s => ?_
  grind

theorem fileCreate_noHeapFault (filename : List Byte) (flag : Byte) :
    NoHeapFault (fileCreate dir filename flag : FsCall part (Option Nat)) := by
  refine .bind inodeBitmapAlloc_noHeapFault fun found => ?_
  split
  · refine .bind .get fun s => .bind (.bind .get fun _ => .bind (.modify _) fun _ => .pure _)
      fun ptr => .bind (store_noHeapFault _ _) fun _ => ?_
    split
    · grind
    · refine .bind (.modify _) fun _ => .bind (.lift (createDirEntry_avoids _ _ _ _)) fun _ =>
        .bind (syncDirEntry_noHeapFault _ _) fun done => ?_
      split
      · exact publishFile_noHeapFault _ _ _ _
      · grind
  · exact .pure _

theorem searchDirEntry_noHeapFault (name : List Byte) :
    NoHeapFault (searchDirEntry dir name : FsCall part (Option DirEntry)) := by
  grind [searchDirEntry]

theorem fdLocal2global_noHeapFault (localFd : Nat) :
    NoHeapFault (fdLocal2global localFd : FsCall part Nat) := by
  grind [fdLocal2global]

end

/-! ## Inodes in the kernel's heap -/

/-- The inode of a directory is in the kernel's heap; that of `root_dir` is not asked for. -/
def Dir.InKernel : Dir → Prop
  | .root => True
  | .heap inode => inode.inKernel = true

/-- The slots of the file table refer to inodes in the kernel's heap. -/
def SlotsInKernel (s : FsState part) : Prop :=
  ∀ g < maxFileOpen, ∀ ptr, (s.fileTable g).fdInode = some ptr → ptr.inKernel = true

section

variable {s s' : FsState part} {ptr : Ptr}

theorem inodeClose_noHeapFault (inside : ptr.inKernel = true) :
    NoHeapFault (inodeClose ptr : FsCall part Unit) := by
  refine .bind (deref_noHeapFault _) fun inode => ?_
  generalize (if inode.iOpenCnts = 0 then 2 ^ 32 - 1 else inode.iOpenCnts - 1) = cnts
  dsimp only
  split
  · refine .bind (.modify _) fun _ => .bind (.lift ?_) fun _ => .modify _
    rw [assertKernelHeap, if_pos inside]
    intro ran
    cases ran
  · exact store_noHeapFault _ _

theorem dirClose_noHeapFault {dir : Dir} (inside : dir.InKernel) :
    NoHeapFault (dirClose dir : FsCall part Unit) := by
  cases dir with
  | root => exact .pure ()
  | heap inode => exact inodeClose_noHeapFault inside

/-- What is opened is on the list of open inodes. -/
theorem inodeOpen_listed {inodeNo : Word} (ran : (inodeOpen inodeNo).run s = .ok (ptr, s')) :
    ptr ∈ s'.openInodes := by
  rcases inodeOpen_returns ran with ⟨listed, _, _, _, rfl⟩ | ⟨_, _, rfl, rfl⟩
  · exact listed
  · exact List.mem_cons_self

theorem dirClose_safe {dir : Dir} (inside : dir.InKernel) :
    SafeTriple .heapAssertion KernelInodes (dirClose dir : FsCall part Unit) fun _ =>
      KernelInodes :=
  (dirClose_noHeapFault inside).safe
    ((dirClose_keepsFiles dir).triple fun _ _ inodes same => same.kernel inodes)

theorem dirOpen_safe (inodeNo : Word) :
    SafeTriple .heapAssertion KernelInodes (dirOpen inodeNo : FsCall part Dir) fun dir s =>
      KernelInodes s ∧ dir.InKernel := by
  refine Avoids.safe (.bind (inodeOpen_noHeapFault _) fun _ => .pure _) ?_
  intro s dir s' inodes ran
  obtain ⟨ptr, after, opens, ran⟩ := call_bind_returns.mp ran
  obtain ⟨rfl, rfl⟩ := call_pure_returns.mp ran
  have after := (inodeOpen_keepsFiles _ _ _ _ opens).kernel inodes
  exact ⟨after, after.kernel ptr (inodeOpen_listed opens)⟩

/-- A call that neither fails the assertion nor changes the state. -/
theorem safe_same {call : FsCall part α} (avoids : NoHeapFault call) (same : Keeps (· = ·) call) :
    SafeTriple .heapAssertion KernelInodes call fun _ => KernelInodes :=
  avoids.safe same.triple_same

theorem searchLoop_safe (fuel : Nat) (v : Search) (inside : v.record.parentDir.InKernel) :
    SafeTriple .heapAssertion KernelInodes (searchLoop fuel v : FsCall part _) fun found s =>
      KernelInodes s ∧ found.2.parentDir.InKernel := by
  induction fuel generalizing v with
  | zero => exact (Avoids.throw (by decide)).safe (.throw _)
  | succ fuel ih =>
      unfold searchLoop
      split
      · exact .bind (dirClose_safe inside) fun _ => .bind (dirOpen_safe _) fun _ =>
          (Avoids.pure _).safe (.pure fun _ => id)
      · split
        · exact (Avoids.throw (by decide)).safe (.throw _)
        · refine .bind ((Avoids.require (by decide)).safe (.lift _)) fun _ =>
            .bind (Avoids.get.safe .get_keeps) fun s =>
            .bind (safe_same (searchDirEntry_noHeapFault _ _) (searchDirEntry_same _ _))
              fun found => ?_
          split
          · exact (Avoids.pure _).safe (.pure fun _ inodes => ⟨inodes, inside⟩)
          · refine .bind ((Avoids.lift (pathNext_avoids _)).safe (.lift _)) fun next => ?_
            obtain ⟨name, subPath⟩ := next
            dsimp only
            split
            · exact .bind (safe_same (deref_noHeapFault _) (deref_same _)) fun parent =>
                .bind (dirClose_safe inside) fun _ => .bind (dirOpen_safe _) fun dir =>
                  .assume fun within => ih _ within
            · split
              · exact (Avoids.pure _).safe (.pure fun _ inodes => ⟨inodes, inside⟩)
              · exact ih _ inside

theorem searchFile_safe (junk : Word) (pathname : List Byte) :
    SafeTriple .heapAssertion KernelInodes (searchFile junk pathname : FsCall part _)
      fun found s => KernelInodes s ∧ found.2.parentDir.InKernel := by
  unfold searchFile
  split
  · exact (Avoids.pure _).safe (.pure fun _ inodes => ⟨inodes, trivial⟩)
  · refine .bind ((Avoids.require (by decide)).safe (.lift _)) fun _ =>
      .bind ((Avoids.lift (pathParse_avoids _)).safe (.lift _)) fun next => ?_
    obtain ⟨name, subPath⟩ := next
    exact searchLoop_safe _ _ trivial

/-- The part of `sys_open` after the search. -/
theorem openFound_noHeapFault {pathname : List Byte} {flags : Byte} {depth : Nat} {inodeNo : Word}
    {record : PathSearchRecord} (inside : record.parentDir.InKernel) :
    NoHeapFault (openFound pathname flags depth inodeNo record : FsCall part _) := by
  have refuses : NoHeapFault (do
      dirClose record.parentDir
      return none : FsCall part (Option Nat)) :=
    .bind (dirClose_noHeapFault inside) fun _ => .pure _
  unfold openFound
  split
  · exact refuses
  · refine .bind (.lift (pathDepthCnt_avoids _)) fun _ => ?_
    split
    · exact refuses
    · split
      · exact refuses
      · split
        · exact refuses
        · split
          · exact fileOpen_noHeapFault _ _
          · exact .bind (.lift (afterLastSlash_avoids _)) fun _ => .bind .get fun s =>
              .bind (fileCreate_noHeapFault _ _ _) fun _ =>
              .bind (dirClose_noHeapFault inside) fun _ => .pure _

/-- `sys_open` does not fail the assertion while the open inodes are in the kernel's heap. -/
theorem sysOpen_noHeapFault (inodes : KernelInodes s) (junk : Word) (pathname : List Byte)
    (flags : Byte) : (sysOpen junk pathname flags).run s ≠ .error .heapAssertion := by
  have safe : SafeTriple .heapAssertion KernelInodes
      (sysOpen junk pathname flags : FsCall part _) fun _ _ => True := by
    unfold sysOpen
    split
    · exact (Avoids.throw (by decide)).safe (.throw _)
    · split
      · exact (Avoids.pure _).safe (.pure fun _ _ => trivial)
      · refine .bind ((Avoids.require (by decide)).safe (.lift _)) fun _ =>
          .bind ((Avoids.lift (pathDepthCnt_avoids _)).safe (.lift _)) fun depth =>
          .bind (searchFile_safe _ _) fun found => ?_
        obtain ⟨inodeNo, record⟩ := found
        exact .assume fun inside => (openFound_noHeapFault inside).safe fun _ _ _ _ _ => trivial
  exact safe.1 s inodes

/-- Closing a slot empties it. -/
theorem fileClose_slots {g : Nat} (slots : SlotsInKernel s)
    (ran : (fileClose g).run s = .ok ((), s')) : SlotsInKernel s' := by
  obtain ⟨ptr, inode, closed, _, _, _, rfl⟩ := fileClose_returns ran
  intro g' small p used
  dsimp only at used
  by_cases here : g' = g
  · rw [here, Function.update_self] at used
    cases used
  · rw [Function.update_of_ne here] at used
    exact slots g' small p used

theorem sysClose_safe (fd : Int) : SafeTriple .heapAssertion SlotsInKernel
    (sysClose fd : FsCall part Bool) fun _ => SlotsInKernel := by
  constructor
  · intro s slots ran
    unfold sysClose at ran
    split at ran
    · rcases call_bind_error.mp ran with failed | ⟨g, s₁, reads, failed⟩
      · exact fdLocal2global_noHeapFault _ s failed
      · obtain ⟨_, _, small, rfl⟩ := fdLocal2global_returns reads
        rcases call_bind_error.mp failed with failed | ⟨_, s₂, _, failed⟩
        · unfold fileClose at failed
          rw [call_bind_of (call_get_returns.mpr ⟨rfl, rfl⟩)] at failed
          cases used : (s.fileTable g).fdInode with
          | none =>
              simp only [used] at failed
              cases failed
          | some ptr =>
              simp only [used] at failed
              have inside := slots g small ptr used
              have avoids : NoHeapFault (do
                  let inode ← deref ptr
                  store ptr { inode with writeDeny := false }
                  inodeClose ptr
                  setFile g { s.fileTable g with fdInode := none } : FsCall part Unit) :=
                .bind (deref_noHeapFault _) fun _ => .bind (store_noHeapFault _ _) fun _ =>
                  .bind (inodeClose_noHeapFault inside) fun _ => setFile_noHeapFault _ _
              exact avoids s failed
        · cases failed
    · cases ran
  · intro s done s' slots ran
    rcases sysClose_returns ran with ⟨_, rfl⟩ | ⟨g, closed, _, _, _, _, closes, rfl⟩
    · exact slots
    · have slots' : SlotsInKernel closed := fileClose_slots slots closes
      exact slots'

/-- Closing all descriptors does not fail the assertion. -/
theorem closeFds_safe (fds : List Nat) : SafeTriple .heapAssertion SlotsInKernel
    (closeFds fds : FsCall part Unit) fun _ => SlotsInKernel := by
  induction fds with
  | nil => exact (Avoids.pure ()).safe (.pure fun _ => id)
  | cons fd fds ih =>
      unfold closeFds
      refine .bind (Avoids.get.safe .get_keeps) fun s => ?_
      split
      · exact ih
      · exact .bind (sysClose_safe _) fun _ => ih

end

/-! ## What the calls leave -/

/-- The open inodes are objects in the kernel's heap, and so are those of the file table. -/
structure HeapSound (s : FsState part) : Prop where
  inodes : KernelInodes s
  slots : SlotsInKernel s

section

variable {s s' : FsState part}

theorem KernelInodes.transfer (inodes : KernelInodes s) (objects : s'.inodes = s.inodes)
    (nextAddr : s'.nextAddr = s.nextAddr) (openInodes : s'.openInodes = s.openInodes) :
    KernelInodes s' :=
  SameCounts.kernelInodes (s := { s with
    rootDir := s'.rootDir
    fileTable := s'.fileTable
    fdTable := s'.fdTable
    userProcess := s'.userProcess }) ⟨fun ptr => by rw [objects], nextAddr, openInodes, rfl, rfl,
      rfl, rfl⟩ ⟨⟨inodes.sound.nodup, inodes.sound.old, inodes.sound.fresh,
        inodes.sound.positive⟩, inodes.kernel, inodes.live⟩

theorem SlotsInKernel.transfer (slots : SlotsInKernel s) (same : s'.fileTable = s.fileTable) :
    SlotsInKernel s' := by
  intro g small ptr used
  rw [same] at used
  exact slots g small ptr used

theorem HeapSound.of_sameFiles (sound : HeapSound s) (same : SameFiles s s') : HeapSound s' :=
  ⟨same.kernel sound.inodes, sound.slots.transfer same.fileTable⟩

theorem HeapSound.of_sameCounts (sound : HeapSound s) (same : SameCounts s s') : HeapSound s' :=
  sound.of_sameFiles same.sameFiles

/-- A slot is filled with an inode that is open. -/
theorem HeapSound.fill (sound : HeapSound s) {ptr : Ptr} (listed : ptr ∈ s.openInodes) (g : Nat)
    (flag : Byte) (fdTable : Nat → Option Nat) : HeapSound (s.fill g flag ptr fdTable) := by
  refine ⟨sound.inodes.transfer rfl rfl rfl, ?_⟩
  intro g' small p used
  rw [fileTable_fill] at used
  by_cases here : g' = g
  · rw [here, Function.update_self] at used
    cases used
    exact sound.inodes.kernel ptr listed
  · rw [Function.update_of_ne here] at used
    exact sound.slots g' small p used

/-- A kernel thread allocates an inode object. -/
theorem HeapSound.create (sound : HeapSound s) (thread : s.userProcess = false) :
    HeapSound s.create := by
  have new : s.newPtr.inKernel = true := by
    rw [FsState.newPtr, thread]
    rfl
  refine ⟨⟨(create_grows s).sound sound.inodes.sound, ?_, ?_⟩, sound.slots.transfer rfl⟩
  · intro p listed
    rcases List.mem_cons.mp listed with rfl | before
    · exact new
    · exact sound.inodes.kernel p before
  · intro p listed
    rcases List.mem_cons.mp listed with rfl | before
    · exact ⟨_, Function.update_self ..⟩
    · exact live_update (sound.inodes.live p before)

/-- An inode object is allocated and freed. -/
theorem HeapSound.discard (sound : HeapSound s) {table : Nat → File}
    (used : SameUsed s.fileTable table) : HeapSound (s.discard table) := by
  refine ⟨⟨(discard_grows s table).sound sound.inodes.sound, sound.inodes.kernel, ?_⟩, ?_⟩
  · intro p listed
    have other : p ≠ s.newPtr := by
      rintro rfl
      have old := sound.inodes.sound.old _ listed
      rw [newPtr_addr] at old
      exact Nat.lt_irrefl _ old
    obtain ⟨obj, live⟩ := sound.inodes.live p listed
    exact ⟨obj, (Function.update_of_ne other _ _).trans live⟩
  · intro g small ptr slot
    rcases used g with is | ⟨empty, -⟩
    · rw [fileTable_discard, is] at slot
      exact sound.slots g small ptr slot
    · rw [fileTable_discard, empty] at slot
      cases slot

/-- The open inodes after `file_create` by a kernel thread, or without a free slot. -/
theorem HeapSound.fileCreate (sound : HeapSound s) {dir : Ptr} {filename : List Byte} {flag : Byte}
    {fd : Option Nat} (may : s.userProcess = false ∨ s.freeSlot = none)
    (ran : (fileCreate dir filename flag).run s = .ok (fd, s')) : HeapSound s' := by
  rcases fileCreate_returns ran with ⟨_, same | ⟨table, used, same⟩⟩ | ⟨g, free, _, same⟩
  · exact sound.of_sameCounts same
  · exact (sound.discard used).of_sameCounts same
  · rcases may with thread | full
    · exact ((sound.create thread).fill List.mem_cons_self _ _ _).of_sameCounts same
    · rw [full] at free
      cases free

theorem HeapSound.fileOpen (sound : HeapSound s) {inodeNo : Word} {flag : Byte} {fd : Option Nat}
    (ran : (fileOpen inodeNo flag).run s = .ok (fd, s')) : HeapSound s' := by
  rcases fileOpen_returns ran with ⟨_, _, rfl⟩ | ⟨g, ptr, opened, _, opens, _, same⟩
  · exact sound
  · have after := sound.of_sameFiles (inodeOpen_keepsFiles _ _ _ _ opens)
    exact (after.fill (inodeOpen_listed opens) _ _ _).of_sameCounts same

/-- `sys_open` makes a file, and there is a slot for it. -/
def MakesInode (s : FsState part) (junk : Word) (pathname : List Byte) (flags : Byte) : Prop :=
  s.freeSlot ≠ none ∧ ∃ filename record searched,
    CreatesFile s junk pathname flags filename record searched

theorem HeapSound.sysOpen (sound : HeapSound s) {junk : Word} {pathname : List Byte}
    {flags : Byte} {fd : Option Nat}
    (may : s.userProcess = true → ¬ MakesInode s junk pathname flags)
    (ran : (sysOpen junk pathname flags).run s = .ok (fd, s')) : HeapSound s' := by
  cases sysOpen_returns ran with
  | slash => exact sound
  | refused search closed =>
      exact (sound.of_sameFiles (searchFile_keepsFiles _ _ _ _ _ search)).of_sameFiles
        (dirClose_keepsFiles _ _ _ _ closed)
  | existing opens ran =>
      exact (sound.of_sameFiles (searchFile_keepsFiles _ _ _ _ _ opens.search)).fileOpen ran
  | @created record searched made s' filename fd new creates closed =>
      have search := searchFile_keepsFiles _ _ _ _ _ new.search
      have slots : searched.freeSlot = s.freeSlot := by
        unfold FsState.freeSlot
        rw [search.fileTable]
      have may' : searched.userProcess = false ∨ searched.freeSlot = none := by
        rw [search.userProcess, slots]
        cases user : s.userProcess with
        | false => exact .inl rfl
        | true =>
            by_contra neither
            exact may user ⟨fun full => neither (.inr full), filename, record, searched, new⟩
      exact ((sound.of_sameFiles search).fileCreate may' creates).of_sameFiles
        (dirClose_keepsFiles _ _ _ _ closed)

theorem HeapSound.fileClose (sound : HeapSound s) {g : Nat}
    (ran : (fileClose g).run s = .ok ((), s')) : HeapSound s' := by
  refine ⟨?_, fileClose_slots sound.slots ran⟩
  obtain ⟨ptr, inode, closed, _, live, closes, rfl⟩ := fileClose_returns ran
  have stores : Counting ptr inode.iOpenCnts
    (store ptr { inode with writeDeny := false } : FsCall part Unit) := .store rfl
  have stored := stores s () _ (store_returns.mpr rfl) (by rw [live, Option.map_some])
  have after := (inodeClose_keepsFiles _ _ _ _ closes).kernel (stored.kernelInodes sound.inodes)
  exact after.transfer rfl rfl rfl

theorem HeapSound.sysClose (sound : HeapSound s) {fd : Int} {done : Bool}
    (ran : (sysClose fd).run s = .ok (done, s')) : HeapSound s' := by
  rcases sysClose_returns ran with ⟨_, rfl⟩ | ⟨g, closed, _, _, _, _, closes, rfl⟩
  · exact sound
  · have after := sound.fileClose closes
    exact ⟨after.inodes.transfer rfl rfl rfl, after.slots.transfer rfl⟩

theorem closeFds_heapSound (fds : List Nat) : Triple HeapSound
    (closeFds fds : FsCall part Unit) fun _ => HeapSound := by
  induction fds with
  | nil => exact .pure fun _ => id
  | cons fd fds ih =>
      unfold closeFds
      refine .bind .get_keeps fun s => ?_
      split
      · exact ih
      · exact .bind (fun _ _ _ sound ran => sound.sysClose ran) fun _ => ih

end

/-! ## All tasks -/

section Tasks

variable {tasks next : Tasks part} {pid : Pid}

/-- Every open inode is in the kernel's heap, and every task sees it. -/
def InodesInKernel (tasks : Tasks part) : Prop :=
  ∀ ptr ∈ tasks.fs.openInodes, ptr.inKernel = true ∧ ∀ pid, ∃ obj, tasks.objects pid ptr = some obj

/-- A `sys_open`, `sys_close` or `sys_exit` fails the assertion of `sys_free`. -/
def HeapFault (tasks : Tasks part) (label : FsLabel) : Prop :=
  match label.op with
  | .openFile pathname flags => (sysOpen label.junk pathname.chars flags).run
      (tasks.view label.pid) = .error .heapAssertion
  | .close fd => (sysClose fd).run (tasks.view label.pid) = .error .heapAssertion
  | .exit => (closeFds localFds).run (tasks.view label.pid) = .error .heapAssertion
  | _ => False

/-- The call is not a `sys_open` in which a user process makes an inode. -/
def NoUserInode (tasks : Tasks part) (label : FsLabel) : Prop :=
  ∀ pathname flags, label.op = .openFile pathname flags →
    (tasks.task label.pid).userProcess = true →
    ¬ MakesInode (tasks.view label.pid) label.junk pathname.chars flags

/-- Every task sees the objects in the kernel's heap. -/
theorem objects_of_kernel {ptr : Ptr} (inside : ptr.inKernel = true) :
    tasks.objects pid ptr = tasks.fs.inodes ptr := by
  cases ptr with
  | kernel addr => rfl
  | user addr => cases inside

/-- The list of open inodes is sound, and the open inodes and those of the file table are in the
kernel's heap. -/
structure KernelTasks (tasks : Tasks part) : Prop where
  lists : ListsSound tasks
  inodes : InodesInKernel tasks
  slots : SlotsInKernel tasks.fs

/-- What a task sees of the heaps is sound. -/
theorem KernelTasks.view (kernel : KernelTasks tasks) (pid : Pid) : HeapSound (tasks.view pid) :=
  ⟨⟨kernel.lists pid, fun ptr listed => (kernel.inodes ptr listed).1,
    fun ptr listed => (kernel.inodes ptr listed).2 pid⟩, kernel.slots.transfer rfl⟩

/-- What a call left in the kernel's heap is there for all tasks. -/
theorem HeapSound.kernelTasks {s : FsState part} (sound : HeapSound s) (lists : ListsSound next)
    (fs : next.fs = s) : KernelTasks next := by
  refine ⟨lists, ?_, fs ▸ sound.slots⟩
  intro ptr listed
  rw [fs] at listed
  have inside := sound.inodes.kernel ptr listed
  refine ⟨inside, fun pid => ?_⟩
  rw [objects_of_kernel inside, fs]
  exact sound.inodes.live ptr listed

theorem KernelTasks.no_heapFault (kernel : KernelTasks tasks) (label : FsLabel) :
    ¬ HeapFault tasks label := by
  obtain ⟨pid, junk, op⟩ := label
  have seen := kernel.view pid
  intro fails
  cases op with
  | openFile pathname flags => exact sysOpen_noHeapFault seen.inodes _ _ _ fails
  | close fd => exact (sysClose_safe fd).1 _ seen.slots fails
  | exit => exact (closeFds_safe localFds).1 _ seen.slots fails
  | unlink | mkdir | rmdir | opendir | closedir | chdir | stat | fork => exact fails

theorem Mounted.kernelTasks (mounted : Mounted tasks) : KernelTasks tasks := by
  obtain ⟨addr, root, is, -, live, -⟩ := mounted.root
  refine ⟨mounted.listsSound, ?_, ?_⟩
  · intro ptr listed
    rw [mounted.openInodes, List.mem_singleton] at listed
    rw [listed, is]
    exact ⟨rfl, fun _ => ⟨root, live⟩⟩
  · intro g small ptr used
    rw [mounted.noFile g small] at used
    cases used

/-- A step in which no user process makes an inode keeps the inodes in the kernel's heap. -/
theorem kernelTasks_step {label : FsLabel} (kernel : KernelTasks tasks)
    (threads : NoUserInode tasks label) (stepped : exec tasks label = some next) :
    KernelTasks next := by
  have lists := listsSound_step kernel.lists stepped
  obtain ⟨pid, junk, op⟩ := label
  have seen := kernel.view pid
  have discipline := sameFiles_discipline (tasks.view pid)
  have refl : SameFiles (tasks.view pid) (tasks.view pid) := Std.Refl.refl _
  cases op with
  | openFile pathname flags =>
      obtain ⟨-, fd, s, ran, rfl⟩ := exec_openFile stepped
      have after := seen.sysOpen (threads pathname flags rfl) ran
      cases fd with
      | none => exact after.kernelTasks lists rfl
      | some fd => exact after.kernelTasks lists rfl
  | close fd =>
      obtain ⟨-, done, s, ran, rfl⟩ := exec_close stepped
      exact (seen.sysClose ran).kernelTasks lists rfl
  | unlink pathname =>
      obtain ⟨-, done, s, ran, rfl⟩ := exec_unlink stepped
      have same := @QuietDiscipline.sysUnlink _ _ 0 discipline _ _ _ _ _ refl ran
      exact (seen.of_sameFiles same).kernelTasks lists rfl
  | mkdir pathname =>
      obtain ⟨-, done, s, ran, rfl⟩ := exec_mkdir stepped
      have same := @QuietDiscipline.sysMkdir _ _ 0 discipline _ _ _ _ _ refl ran
      exact (seen.of_sameFiles same).kernelTasks lists rfl
  | rmdir pathname =>
      obtain ⟨-, done, s, ran, rfl⟩ := exec_rmdir stepped
      have same := @QuietDiscipline.sysRmdir _ _ 0 discipline _ _ _ _ _ refl ran
      exact (seen.of_sameFiles same).kernelTasks lists rfl
  | opendir name =>
      obtain ⟨-, dir, s, ran, rfl⟩ := exec_opendir stepped
      have same := @Discipline.sysOpendir _ _ 0 discipline.toDiscipline _ _ _ _ _ refl ran
      cases dir with
      | none => exact (seen.of_sameFiles same).kernelTasks lists rfl
      | some dir => exact (seen.of_sameFiles same).kernelTasks lists rfl
  | closedir dir =>
      obtain ⟨-, -, s, ran, rfl⟩ := exec_closedir stepped
      exact (seen.of_sameFiles (dirClose_keepsFiles _ _ _ _ ran)).kernelTasks lists rfl
  | chdir path =>
      obtain ⟨-, inodeNo, s, ran, rfl⟩ := exec_chdir stepped
      have same := @Discipline.sysChdir _ _ 0 discipline.toDiscipline _ _ _ _ _ refl ran
      cases inodeNo with
      | none => exact (seen.of_sameFiles same).kernelTasks lists rfl
      | some inodeNo => exact (seen.of_sameFiles same).kernelTasks lists rfl
  | stat path =>
      obtain ⟨-, stat, s, ran, rfl⟩ := exec_stat stepped
      have same := @Discipline.sysStat _ _ 0 discipline.toDiscipline _ _ _ _ _ refl ran
      exact (seen.of_sameFiles same).kernelTasks lists rfl
  | fork child =>
      obtain ⟨-, -, s, ran, rfl⟩ := exec_fork stepped
      have same := updateInodeOpenCnts_keepsFiles _ _ _ _ ran
      exact (seen.of_sameFiles same).kernelTasks lists rfl
  | exit =>
      obtain ⟨-, s, ran, rfl⟩ := exec_exit stepped
      exact (closeFds_heapSound _ _ _ _ seen ran).kernelTasks lists rfl

/-- **The heap of the inodes.** In every run in which no user process makes a file, the open
inodes are in the kernel's heap, every task sees them, and no call fails the assertion of
`sys_free`. -/
theorem inodes_in_kernel_heap
    (reachable : ((tasksUsing part fun _ => True).under NoUserInode).Reachable tasks) :
    InodesInKernel tasks ∧ ∀ label, ¬ HeapFault tasks label := by
  have kernel : KernelTasks tasks := by
    apply reachable.invariant KernelTasks
    · exact fun tasks mounted => Mounted.kernelTasks mounted
    · exact fun tasks label next _ kernel taken => kernelTasks_step kernel taken.1 taken.2.2
  exact ⟨kernel.inodes, kernel.no_heapFault⟩

end Tasks

/-- Kernel thread 0 makes a file and closes it, and process 1 opens it. -/
theorem inodes_in_kernel_heap_opened : ∃ tasks : Tasks somePartition,
    (tasks.task 1).fdTable 3 = some 3 ∧ InodesInKernel tasks ∧
      ∀ label, ¬ HeapFault tasks label := by
  have found : ((boot {0, 1} fun pid => pid == 1).bind fun tasks =>
      (exec tasks ⟨0, 0, .openFile pathA (oCreat ||| oRdwr)⟩).bind fun tasks =>
        (exec tasks ⟨0, 0, .close 3⟩).bind fun tasks =>
          exec tasks ⟨1, 0, .openFile pathA 0⟩).any
      (fun (tasks : Tasks somePartition) => decide ((tasks.task 1).fdTable 3 = some 3)) = true := by
    decide +kernel
  obtain ⟨tasks, ran, entry⟩ := Option.any_eq_true _ _ |>.mp found
  obtain ⟨booted, boots, ran⟩ := Option.bind_eq_some_iff.mp ran
  obtain ⟨opened, opens, ran⟩ := Option.bind_eq_some_iff.mp ran
  obtain ⟨closed, closes, reopens⟩ := Option.bind_eq_some_iff.mp ran
  have thread : NoUserInode booted ⟨0, 0, .openFile pathA (oCreat ||| oRdwr)⟩ := by
    intro pathname flags _ user
    unfold boot at boots
    split at boots
    · cases boots
      cases user
    · cases boots
  have close : NoUserInode opened ⟨0, 0, .close 3⟩ := by
    intro pathname flags is
    cases is
  have existing : NoUserInode closed ⟨1, 0, .openFile pathA 0⟩ := by
    intro pathname flags is user makes
    cases is
    obtain ⟨-, _, _, _, new⟩ := makes
    exact new.creat rfl
  have start : ((tasksUsing somePartition fun _ => True).under NoUserInode).Reachable booted :=
    .initial (boot_mounted boots)
  have first := start.step _ ⟨thread, trivial, opens⟩
  have second := first.step _ ⟨close, trivial, closes⟩
  exact ⟨tasks, of_decide_eq_true entry,
    inodes_in_kernel_heap (second.step _ ⟨existing, trivial, reopens⟩)⟩

/-- The calls that open and close files. -/
def OpensAndCloses : FsOp → Prop
  | .openFile _ _ => True
  | .close _ => True
  | .exit => True
  | _ => False

/-- Process 1 makes a file. Its inode is in the heap of the process, and closing the file fails
the assertion. -/
theorem user_inode_fails_assertion : ∃ tasks : Tasks somePartition,
    (tasksUsing somePartition OpensAndCloses).Reachable tasks ∧ ¬ InodesInKernel tasks ∧
      HeapFault tasks ⟨1, 0, .close 3⟩ := by
  have found : (runFrom {1} (fun _ => true) [⟨1, 0, .openFile pathA (oCreat ||| oRdwr)⟩]).any
      (fun (tasks : Tasks somePartition) => decide (tasks.fs.openInodes = [.user 1, .kernel 0] ∧
        faultOf (sysClose 3) (tasks.view 1) = some .heapAssertion)) = true := by
    decide +kernel
  obtain ⟨tasks, ran, facts⟩ := Option.any_eq_true _ _ |>.mp found
  obtain ⟨listed, fails⟩ := of_decide_eq_true facts
  refine ⟨tasks, reachable_runFrom ?_ ran, fun inodes => ?_, faultOf_eq_some.mp fails⟩
  · intro label member
    rw [List.mem_singleton.mp member]
    trivial
  · have outside := (inodes (.user 1) (by rw [listed]; exact List.mem_cons_self)).1
    cases outside

end UKernel.Fs
