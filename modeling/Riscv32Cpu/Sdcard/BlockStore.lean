/- module: Riscv32Cpu/Sdcard/BlockStore
   source: CODE/nemu/src/device/sdcard.c, io/map.c
   digest: The controller as a block store, along the runs that keep to its transfers. -/

import Mathlib.Tactic.SplitIfs
import Riscv32Cpu.Lib.Trace
import Riscv32Cpu.Sdcard.Model

set_option autoImplicit false
set_option relaxedAutoImplicit false

namespace Riscv32Cpu.Sdcard

open Lib.Effect Lib.Memory
open Lib.Trace (play Along play_invariant)

/-- What the guest has under way since its last write to `SDCMD`, where that was a command to read
or to write: the direction, the block, and the words done. -/
structure Transfer where
  isWrite : Bool
  block : Word
  done : Nat
  deriving DecidableEq

/-- Where the next word of a transfer lies in the image. -/
def Transfer.pos (w : Transfer) : Nat := 512 * w.block.toNat + 4 * w.done

structure Session where
  card : Card
  transfer : Option Transfer

/-- The register of an access. -/
def Access.register : Access → Option Register
  | .read offset _ | .write offset _ _ => Register.ofIdx (offset.toNat / 4)

def Access.isWrite : Access → Bool
  | .read _ _ => false
  | .write _ _ _ => true

/-- The direction that a command transfers blocks in. -/
def Mmc.direction : Mmc → Option Bool
  | .readMultipleBlock => some false
  | .writeMultipleBlock => some true
  | _ => none

/-- The direction of the command that `SDCMD` holds. -/
def Card.direction (s : Card) : Option Bool := (Mmc.ofCode s.cmd.toNat).bind Mmc.direction

/-- The transfer that this command begins. -/
def Card.begun (s : Card) : Option Transfer :=
  s.direction.map fun isWrite => ⟨isWrite, s.reg .sdarg, 0⟩

/-- What is under way after an access that leaves the card as `s`. -/
def Access.follow (a : Access) (s : Card) (w : Option Transfer) : Option Transfer :=
  if a.register = some .sdcmd ∧ a.isWrite then s.begun
  else if a.register = some .sddata then
    w.map fun w => if a.isWrite = w.isWrite then { w with done := w.done + 1 } else w
  else w

def step (a : Access) (s : Session) : Option Session :=
  match access a s.card with
  | .ok _ t => some ⟨t, a.follow t s.transfer⟩
  | .error _ _ => none

/-- The image as it stands. -/
def Card.image (s : Card) : Option (Nat → Byte) := s.fp.map File.bytes

/-- `SDDATA` as a whole. -/
def sddataOffset : Word := 0x40

/-- One access to a block store: a read in a read transfer gives the next word of the image, a
write in a write transfer stores the next word. No other access changes the image, but for what is
written to `SDDATA` outside a write transfer, which is left open. -/
structure Faithful (s : Session) (a : Access) (v : Word) (t : Card) : Prop where
  read : ∀ w image, s.transfer = some w → w.isWrite = false → a.register = some .sddata →
    a.isWrite = false → s.card.image = some image →
      t.reg .sddata = wordAt image w.pos ∧
        (a = .read sddataOffset 4 → v = wordAt image w.pos)
  write : ∀ w image, s.transfer = some w → w.isWrite = true → a.register = some .sddata →
    a.isWrite = true → s.card.image = some image →
      t.image = some (putWord image w.pos (t.reg .sddata)) ∧
        ∀ data, a = .write sddataOffset 4 data → t.reg .sddata = data
  frame : a.isWrite = false ∨ a.register ≠ some .sddata ∨ s.card.readExtCsd = true →
    t.image = s.card.image

/-- The direction and the place in the file are those that the command `isWrite` sets. -/
def Card.Sought (s : Card) (isWrite : Bool) : Prop :=
  s.writeCmd = isWrite ∧ s.fp.map File.pos = some (512 * (s.reg .sdarg).toNat)

/-- The access takes none of the ways that go wrong: `SDCMD` is read only where the command it
holds has nothing left to move, a command to read or to write does not come in the middle of an
EXT_CSD transfer, and outside of these `SDDATA` is accessed in the direction of the transfer. -/
def Regular (a : Access) (s : Session) : Prop :=
  match a with
  | .read _ _ =>
    match a.register with
    | some .sdcmd =>
      match s.card.direction with
      | some isWrite => s.card.Sought isWrite
      | none => True
    | some .sddata => s.card.readExtCsd = true ∨ s.card.writeCmd = false
    | _ => True
  | .write offset len data =>
    match a.register with
    | some .sdcmd =>
      (s.card.poke offset len data).direction = none ∨
        s.card.readExtCsd = false
    | some .sddata => s.card.readExtCsd = true ∨ s.card.writeCmd = true
    | _ => True

instance (s : Card) (isWrite : Bool) : Decidable (s.Sought isWrite) := by
  unfold Card.Sought
  infer_instance

instance (a : Access) (s : Session) : Decidable (Regular a s) := by
  unfold Regular
  repeat' split
  all_goals infer_instance

/-- What is under way is what the card is set to. -/
structure Inv (s : Session) : Prop where
  opened : s.card.fp ≠ none
  seek : ∀ w, s.transfer = some w → s.card.writeCmd = w.isWrite ∧
    s.card.fp.map File.pos = some w.pos
  plain : s.transfer.isSome → s.card.readExtCsd = false ∧ s.card.direction ≠ none

theorem cmd_store (s : Card) {offset : Word} {len : Nat} (data : Word) (hlow : 4 ≤ offset.toNat)
    (hhigh : offset.toNat < 2 ^ 31) (hlen : len ≤ 4) :
    (s.poke offset len data).cmd = s.cmd := by
  refine congrArg (· &&& 0x3f) (load_congr fun k hk => store_out _ _ ?_)
  have haddr : BitVec.ofNat 32 (4 * Register.sdcmd.idx) + BitVec.ofNat 32 k = BitVec.ofNat 32 k :=
    BitVec.zero_add _
  rw [haddr, BitVec.toNat_sub, BitVec.toNat_ofNat]
  omega

theorem cmd_setReg (s : Card) {r : Register} (hr : r ≠ .sdcmd) (w : Word) :
    (s.setReg r w).cmd = s.cmd := by
  refine cmd_store s w ?_ ?_ (Nat.le_refl 4)
  all_goals
    rw [BitVec.toNat_ofNat]
    cases r with
    | sdcmd => exact absurd rfl hr
    | sdarg => decide
    | sdrsp i =>
      have hi := i.isLt
      simp only [Register.idx]
      omega
    | sddata => decide

theorem reg_setReg (s : Card) (r : Register) (w : Word) : (s.setReg r w).reg r = w :=
  load_store s.base _ w rfl (by decide)

theorem Register.ofIdx_range {i : Nat} {r : Register} (h : Register.ofIdx i = some r) :
    i ≤ 16 ∧ (r ≠ .sdcmd → 1 ≤ i) := by
  unfold Register.ofIdx at h
  split at h <;> cases h <;> simp

theorem cmd_handle (c : Mmc) (s : Card) : (s.handle c).cmd = s.cmd := by
  cases c <;>
    simp only [Card.handle, cmd_setReg, ne_eq, reduceCtorEq, not_false_eq_true] <;> rfl

theorem image_prepareRw (isWrite : Bool) (s : Card) : (s.prepareRw isWrite).image = s.image := by
  rw [Card.image, Card.image, Card.prepareRw, Option.map_map]
  rfl

theorem image_handle (c : Mmc) (s : Card) : (s.handle c).image = s.image := by
  cases c with
  | readMultipleBlock => exact image_prepareRw false s
  | writeMultipleBlock => exact image_prepareRw true s
  | _ => rfl

theorem direction_handle (c : Mmc) (s : Card) : (s.handle c).direction = s.direction := by
  rw [Card.direction, cmd_handle]
  rfl

theorem sought_prepareRw (isWrite : Bool) {s : Card} (h : s.fp ≠ none) :
    (s.prepareRw isWrite).Sought isWrite := by
  obtain ⟨f, hf⟩ := Option.ne_none_iff_exists'.mp h
  refine ⟨rfl, ?_⟩
  show (s.fp.map _).map File.pos = some (512 * (s.reg .sdarg).toNat)
  rw [hf, Option.map_some, Option.map_some, File.fseek, Nat.shiftLeft_eq, Nat.mul_comm]

theorem prepareRw_of_sought {isWrite : Bool} {s : Card} (h : s.Sought isWrite) :
    (s.prepareRw isWrite).fp = s.fp ∧ (s.prepareRw isWrite).writeCmd = s.writeCmd := by
  refine ⟨?_, h.1.symm⟩
  cases hf : s.fp with
  | none => rw [Card.prepareRw, hf]; rfl
  | some f =>
    have hpos := h.2
    rw [hf, Option.map_some, Option.some.injEq] at hpos
    show (s.fp.map _) = some f
    rw [hf, Option.map_some, File.fseek, Nat.shiftLeft_eq, Nat.mul_comm, ← hpos]

/-- The handler's effect by register. -/
def Served (s t : Card) : Register → Prop
  | .sdcmd => ∃ c, Mmc.ofCode s.cmd.toNat = some c ∧ t = s.handle c
  | .sdarg | .sdrsp _ => t = s
  | .sddata => t = { s.transfer with addr := s.addr + 4 }

theorem ioHandler_ok {offset : Word} {len : Nat} {isWrite : Bool} {s t : Card}
    (h : sdcardIoHandler offset len isWrite s = .ok () t) :
    ∃ r, Register.ofIdx (offset.toNat / 4) = some r ∧ Served s t r := by
  cases hr : Register.ofIdx (offset.toNat / 4) with
  | none =>
    simp only [sdcardIoHandler, hr] at h
    cases h
  | some r =>
    refine ⟨r, rfl, ?_⟩
    simp only [sdcardIoHandler, hr] at h
    cases r with
    | sdcmd =>
      obtain ⟨u, m, hget, hcmd⟩ := bind_eq_ok h
      cases hget
      cases hc : Mmc.ofCode s.cmd.toNat with
      | none =>
        simp only [sdcardHandleCmd, hc] at hcmd
        cases hcmd
      | some c =>
        simp only [sdcardHandleCmd, hc] at hcmd
        cases hcmd
        exact ⟨c, hc, rfl⟩
    | sdarg | sdrsp | sddata =>
      cases h
      rfl

theorem hostRead_ok {offset : Word} {len : Nat} {v : Word} {s t : Card}
    (h : hostRead offset len s = .ok v t) :
    t = s ∧ v = (load s.base offset (8 * len)).setWidth 32 := by
  unfold hostRead at h
  split at h <;> cases h <;> exact ⟨rfl, rfl⟩

theorem hostWrite_ok {offset : Word} {len : Nat} {data : Word} {s t : Card}
    (h : hostWrite offset len data s = .ok () t) :
    len ≤ 4 ∧ t = s.poke offset len data := by
  unfold hostWrite at h
  split at h <;> cases h <;> exact ⟨by decide, rfl⟩

theorem mapRead_ok {offset : Word} {len : Nat} {v : Word} {s t : Card}
    (h : mapRead offset len s = .ok v t) :
    (∃ r, Register.ofIdx (offset.toNat / 4) = some r ∧ Served s t r) ∧
      v = (load t.base offset (8 * len)).setWidth 32 := by
  obtain ⟨-, h⟩ := ensure_bind_ok h
  obtain ⟨u, m, hio, hread⟩ := bind_eq_ok h
  obtain ⟨rfl, hv⟩ := hostRead_ok hread
  exact ⟨ioHandler_ok hio, hv⟩

theorem mapWrite_ok {offset : Word} {len : Nat} {data : Word} {s t : Card}
    (h : mapWrite offset len data s = .ok () t) :
    len ≤ 4 ∧ ∃ r, Register.ofIdx (offset.toNat / 4) = some r ∧
      Served (s.poke offset len data) t r := by
  obtain ⟨-, h⟩ := ensure_bind_ok h
  obtain ⟨u, m, hstore, hio⟩ := bind_eq_ok h
  obtain ⟨hlen, rfl⟩ := hostWrite_ok hstore
  exact ⟨hlen, ioHandler_ok hio⟩

theorem transfer_ext {s : Card} (h : s.readExtCsd = true) :
    s.transfer.fp = s.fp ∧ s.transfer.writeCmd = s.writeCmd ∧ s.transfer.cmd = s.cmd := by
  rw [Card.transfer, if_pos h]
  exact ⟨rfl, rfl, cmd_setReg s (by decide) _⟩

theorem transfer_read {s : Card} {f : File} (hext : s.readExtCsd = false) (hf : s.fp = some f)
    (hw : s.writeCmd = false) :
    s.transfer = { s.setReg .sddata f.word with fp := some f.skip } := by
  rw [Card.transfer, if_neg (by rw [hext]; decide), hf]
  exact if_pos (by rw [hw]; rfl)

theorem transfer_write {s : Card} {f : File} (hext : s.readExtCsd = false) (hf : s.fp = some f)
    (hw : s.writeCmd = true) :
    s.transfer = { s with fp := some (f.fwrite (s.reg .sddata)) } := by
  rw [Card.transfer, if_neg (by rw [hext]; decide), hf]
  exact if_neg (by rw [hw]; decide)

variable {s : Session} {a : Access} {v : Word} {t : Card}

theorem follow_other (hcmd : a.register = some .sdcmd → a.isWrite = false)
    (hdata : a.register ≠ some .sddata) : a.follow t s.transfer = s.transfer := by
  rw [Access.follow, if_neg fun h => Bool.false_ne_true ((hcmd h.1).symm.trans h.2), if_neg hdata]

theorem Faithful.of_register_ne (hdata : a.register ≠ some .sddata)
    (himage : t.image = s.card.image) : Faithful s a v t where
  read := fun _ _ _ _ h => absurd h hdata
  write := fun _ _ _ _ h => absurd h hdata
  frame := fun _ => himage

theorem Faithful.of_idle (hidle : s.transfer = none) (himage : t.image = s.card.image) :
    Faithful s a v t where
  read := by
    intro w _ hw
    rw [hidle] at hw
    cases hw
  write := by
    intro w _ hw
    rw [hidle] at hw
    cases hw
  frame := fun _ => himage

theorem Inv.idle (h : Inv s) (hext : s.card.readExtCsd = true) : s.transfer = none := by
  cases hsome : s.transfer with
  | none => rfl
  | some w =>
    have hplain := (h.plain (by rw [hsome]; rfl)).1
    rw [hext] at hplain
    cases hplain

theorem Inv.congr (h : Inv s) (hfp : t.fp = s.card.fp) (hw : t.writeCmd = s.card.writeCmd)
    (hext : s.transfer.isSome → t.readExtCsd = s.card.readExtCsd)
    (hcmd : t.cmd = s.card.cmd) : Inv ⟨t, s.transfer⟩ where
  opened := hfp ▸ h.opened
  seek := by
    intro w hsome
    rw [hfp, hw]
    exact h.seek w hsome
  plain := by
    intro hsome
    rw [hext hsome, Card.direction, hcmd]
    exact h.plain hsome

/-- The command that `SDCMD` holds is run again by a read of the register. -/
theorem inv_sdcmdRead (h : Inv s) {c : Mmc} (hc : Mmc.ofCode s.card.cmd.toNat = some c)
    (hok : ∀ isWrite, c.direction = some isWrite → s.card.Sought isWrite) :
    Inv ⟨s.card.handle c, s.transfer⟩ := by
  have hheld : s.card.direction = c.direction := by
    rw [Card.direction, hc]
    rfl
  cases c with
  | readMultipleBlock =>
    obtain ⟨hfp, hw⟩ := prepareRw_of_sought (hok false rfl)
    exact h.congr hfp hw (fun _ => rfl) rfl
  | writeMultipleBlock =>
    obtain ⟨hfp, hw⟩ := prepareRw_of_sought (hok true rfl)
    exact h.congr hfp hw (fun _ => rfl) rfl
  | sendExtCsd => exact h.congr rfl rfl (fun hsome => absurd hheld (h.plain hsome).2) rfl
  | _ => exact h.congr rfl rfl (fun _ => rfl) (cmd_handle _ _)

theorem inv_begun {u : Card} (hfp : u.fp ≠ none) {c : Mmc}
    (hc : Mmc.ofCode u.cmd.toNat = some c) (hok : u.direction = none ∨ u.readExtCsd = false) :
    Inv ⟨u.handle c, (u.handle c).begun⟩ := by
  have hheld : u.direction = c.direction := by
    rw [Card.direction, hc]
    rfl
  cases hd : c.direction with
  | none =>
    have hnone : (u.handle c).begun = none := by
      rw [Card.begun, direction_handle, hheld, hd]
      rfl
    have hopen : (u.handle c).fp ≠ none := by
      cases c <;> first | exact hfp | cases hd
    rw [hnone]
    exact ⟨hopen, (fun _ hw => nomatch hw), fun hsome => nomatch hsome⟩
  | some isWrite =>
    have hprep : u.handle c = u.prepareRw isWrite := by
      cases c <;> cases hd <;> rfl
    have hbegun : (u.handle c).begun = some ⟨isWrite, u.reg .sdarg, 0⟩ := by
      rw [Card.begun, direction_handle, hheld, hd, hprep]
      rfl
    have hext : u.readExtCsd = false := by
      rcases hok with hnone | hext
      · rw [hheld, hd] at hnone
        cases hnone
      · exact hext
    obtain ⟨hw, hpos⟩ := sought_prepareRw isWrite hfp
    rw [hbegun, hprep]
    refine ⟨?_, ?_, fun _ => ⟨hext, ?_⟩⟩
    · intro hnone
      rw [hnone] at hpos
      cases hpos
    · rintro w ⟨⟩
      exact ⟨hw, hpos⟩
    · show (u.prepareRw isWrite).direction ≠ none
      rw [← hprep, direction_handle, hheld, hd]
      exact fun hnone => nomatch hnone

/-- An access to `SDDATA`, with the register as the access leaves it before the handler runs. -/
structure DataAccess (s : Session) (a : Access) (u t : Card) : Prop where
  register : a.register = some .sddata
  fp : u.fp = s.card.fp
  writeCmd : u.writeCmd = s.card.writeCmd
  readExtCsd : u.readExtCsd = s.card.readExtCsd
  cmd : u.cmd = s.card.cmd
  served : t = { u.transfer with addr := u.addr + 4 }
  regular : s.card.readExtCsd = true ∨ s.card.writeCmd = a.isWrite

theorem DataAccess.follow {u : Card} (h : DataAccess s a u t) :
    a.follow t s.transfer = s.transfer.map fun w =>
      if a.isWrite = w.isWrite then { w with done := w.done + 1 } else w := by
  rw [Access.follow, if_neg (by rw [h.register]; rintro ⟨⟨⟩, -⟩), if_pos h.register]

theorem DataAccess.inv_ext {u : Card} (h : DataAccess s a u t) (hs : Inv s)
    (hext : s.card.readExtCsd = true) : Inv ⟨t, a.follow t s.transfer⟩ ∧ t.fp = s.card.fp := by
  obtain ⟨hfp, hw, hcmd⟩ := transfer_ext (h.readExtCsd.trans hext)
  have hfpt : t.fp = s.card.fp := by
    rw [h.served]
    exact hfp.trans h.fp
  have hwt : t.writeCmd = s.card.writeCmd := by
    rw [h.served]
    exact hw.trans h.writeCmd
  have hcmdt : t.cmd = s.card.cmd := by
    rw [h.served]
    exact hcmd.trans h.cmd
  have hidle := hs.idle hext
  refine ⟨?_, hfpt⟩
  rw [h.follow, hidle]
  have hkeep := hs.congr (t := t) hfpt hwt (fun hsome => by rw [hidle] at hsome; cases hsome) hcmdt
  rw [hidle] at hkeep
  exact hkeep

theorem DataAccess.inv_advance {u : Card} (h : DataAccess s a u t) (hs : Inv s) {f g : File}
    (hf : s.card.fp = some f) (hg : t.fp = some g) (hpos : g.pos = f.pos + 4)
    (hw : s.card.writeCmd = a.isWrite) (hwt : t.writeCmd = s.card.writeCmd)
    (hext : t.readExtCsd = s.card.readExtCsd) (hcmd : t.cmd = s.card.cmd) :
    Inv ⟨t, a.follow t s.transfer⟩ := by
  rw [h.follow]
  refine ⟨by rw [hg]; exact Option.some_ne_none g, ?_, ?_⟩
  · intro w' hw'
    obtain ⟨w, hsome, hnext⟩ := Option.map_eq_some_iff.mp hw'
    obtain ⟨hdir, hplace⟩ := hs.seek w hsome
    rw [if_pos (hw.symm.trans hdir)] at hnext
    subst hnext
    refine ⟨hwt.trans hdir, ?_⟩
    rw [hf, Option.map_some, Option.some.injEq] at hplace
    show t.fp.map File.pos = _
    rw [hg, Option.map_some, hpos, hplace]
    rfl
  · intro hsome
    rw [Option.isSome_map] at hsome
    obtain ⟨hplain, hheld⟩ := hs.plain hsome
    refine ⟨hext.trans hplain, ?_⟩
    show t.direction ≠ none
    rw [Card.direction, hcmd]
    exact hheld

theorem DataAccess.read {offset : Word} {len : Nat} (h : DataAccess s (.read offset len) s.card t)
    (hs : Inv s) (hv : v = (load t.base offset (8 * len)).setWidth 32) :
    Inv ⟨t, (Access.read offset len).follow t s.transfer⟩ ∧ Faithful s (.read offset len) v t := by
  cases hext : s.card.readExtCsd with
  | true =>
    obtain ⟨hinv, hfp⟩ := h.inv_ext hs hext
    exact ⟨hinv, .of_idle (hs.idle hext) (congrArg (Option.map File.bytes) hfp)⟩
  | false =>
    obtain ⟨f, hf⟩ := Option.ne_none_iff_exists'.mp hs.opened
    have hw : s.card.writeCmd = false := h.regular.resolve_left (by rw [hext]; decide)
    have ht := h.served
    rw [transfer_read hext hf hw] at ht
    subst ht
    refine ⟨h.inv_advance hs hf rfl rfl hw rfl rfl (cmd_setReg _ (by decide) _), ?_⟩
    have hword : (s.card.setReg .sddata f.word).reg .sddata = f.word := reg_setReg _ _ _
    refine ⟨?_, (fun _ _ _ _ _ hwrite => nomatch hwrite), fun _ => ?_⟩
    · intro w image hsome _ _ _ himage
      have hplace := (hs.seek w hsome).2
      rw [hf, Option.map_some, Option.some.injEq] at hplace
      rw [Card.image, hf, Option.map_some, Option.some.injEq] at himage
      have hnext : f.word = wordAt image w.pos := by rw [File.word, himage, hplace]
      refine ⟨hword.trans hnext, ?_⟩
      rintro ⟨⟩
      rw [hv, BitVec.setWidth_eq]
      exact hword.trans hnext
    · rw [Card.image, Card.image, hf]
      rfl

theorem DataAccess.write {offset : Word} {len : Nat} {data : Word}
    (h : DataAccess s (.write offset len data)
      (s.card.poke offset len data) t) (hs : Inv s) :
    Inv ⟨t, (Access.write offset len data).follow t s.transfer⟩ ∧
      Faithful s (.write offset len data) v t := by
  cases hext : s.card.readExtCsd with
  | true =>
    obtain ⟨hinv, hfp⟩ := h.inv_ext hs hext
    exact ⟨hinv, .of_idle (hs.idle hext) (congrArg (Option.map File.bytes) hfp)⟩
  | false =>
    obtain ⟨f, hf⟩ := Option.ne_none_iff_exists'.mp hs.opened
    have hw : s.card.writeCmd = true := h.regular.resolve_left (by rw [hext]; decide)
    have ht := h.served
    rw [transfer_write (f := f) (by exact hext) (by exact hf) (by exact hw)] at ht
    subst ht
    refine ⟨h.inv_advance hs hf rfl rfl hw rfl rfl h.cmd, ?_⟩
    refine ⟨(fun _ _ _ _ _ hread => nomatch hread), ?_, ?_⟩
    · intro w image hsome _ _ _ himage
      have hplace := (hs.seek w hsome).2
      rw [hf, Option.map_some, Option.some.injEq] at hplace
      rw [Card.image, hf, Option.map_some, Option.some.injEq] at himage
      refine ⟨?_, ?_⟩
      · rw [← himage, ← hplace]
        rfl
      · rintro data' ⟨⟩
        exact reg_setReg s.card .sddata data
    · rintro (hread | hother | hbusy)
      · cases hread
      · exact absurd h.register hother
      · rw [hext] at hbusy
        cases hbusy

theorem step_read {offset : Word} {len : Nat} (hs : Inv s) (hok : Regular (.read offset len) s)
    (h : mapRead offset len s.card = .ok v t) :
    Inv ⟨t, (Access.read offset len).follow t s.transfer⟩ ∧ Faithful s (.read offset len) v t := by
  obtain ⟨⟨r, hr, hserved⟩, hv⟩ := mapRead_ok h
  have hregister : (Access.read offset len).register = some r := hr
  unfold Regular at hok
  rw [hregister] at hok
  cases r with
  | sdcmd =>
    obtain ⟨c, hc, rfl⟩ := hserved
    have hne : (Access.read offset len).register ≠ some .sddata := by
      rw [hregister]
      decide
    rw [follow_other (fun _ => rfl) hne]
    refine ⟨inv_sdcmdRead hs hc fun isWrite hd => ?_, .of_register_ne hne (image_handle c s.card)⟩
    have hheld : s.card.direction = some isWrite := by
      rw [Card.direction, hc, ← hd]
      rfl
    simp only [hheld] at hok
    exact hok
  | sdarg | sdrsp =>
    have hsame : t = s.card := hserved
    have hne : (Access.read offset len).register ≠ some .sddata := by
      rw [hregister]
      exact fun heq => nomatch heq
    rw [follow_other (fun _ => rfl) hne, hsame]
    exact ⟨hs, .of_register_ne hne rfl⟩
  | sddata => exact DataAccess.read ⟨hregister, rfl, rfl, rfl, rfl, hserved, hok⟩ hs hv

theorem step_write {offset : Word} {len : Nat} {data : Word} (hs : Inv s)
    (hok : Regular (.write offset len data) s) (h : mapWrite offset len data s.card = .ok () t) :
    Inv ⟨t, (Access.write offset len data).follow t s.transfer⟩ ∧
      Faithful s (.write offset len data) v t := by
  obtain ⟨hlen, r, hr, hserved⟩ := mapWrite_ok h
  have hregister : (Access.write offset len data).register = some r := hr
  have hkeep : r ≠ .sdcmd →
      (s.card.poke offset len data).cmd = s.card.cmd := by
    intro hne
    obtain ⟨hhigh, hlow⟩ := Register.ofIdx_range hr
    have hlow := hlow hne
    exact cmd_store s.card data (by omega) (by omega) hlen
  unfold Regular at hok
  rw [hregister] at hok
  cases r with
  | sdcmd =>
    obtain ⟨c, hc, rfl⟩ := hserved
    have hne : (Access.write offset len data).register ≠ some .sddata := by
      rw [hregister]
      decide
    have hbegun : (Access.write offset len data).follow
        ((s.card.poke offset len data).handle c) s.transfer =
        ((s.card.poke offset len data).handle c).begun :=
      if_pos ⟨hregister, rfl⟩
    rw [hbegun]
    exact ⟨inv_begun (u := s.card.poke offset len data) hs.opened hc hok,
      .of_register_ne hne (image_handle c _)⟩
  | sdarg | sdrsp =>
    have hsame : t = s.card.poke offset len data := hserved
    have hne : (Access.write offset len data).register ≠ some .sddata := by
      rw [hregister]
      exact fun heq => nomatch heq
    have hcmd : (Access.write offset len data).register ≠ some .sdcmd := by
      rw [hregister]
      exact fun heq => nomatch heq
    rw [follow_other (fun heq => absurd heq hcmd) hne, hsame]
    refine ⟨hs.congr rfl rfl (fun _ => rfl) (hkeep ?_), .of_register_ne hne rfl⟩
    exact fun heq => nomatch heq
  | sddata =>
    exact DataAccess.write
      ⟨hregister, rfl, rfl, rfl, hkeep (by decide), hserved, hok⟩ hs

theorem step_faithful (hs : Inv s) (hok : Regular a s) (h : access a s.card = .ok v t) :
    Inv ⟨t, a.follow t s.transfer⟩ ∧ Faithful s a v t := by
  cases a with
  | read offset len => exact step_read hs hok h
  | write offset len data =>
    obtain ⟨u, m, hwrite, hpure⟩ := bind_eq_ok h
    cases hpure
    exact step_write hs hok hwrite

theorem inv_initSdcard (base : Mem 32) (image : Nat → Byte) :
    Inv ⟨initSdcard base image, none⟩ where
  opened := Option.some_ne_none _
  seek := fun _ hsome => nomatch hsome
  plain := fun hsome => nomatch hsome

/-- Over any image, in every run of accesses that take no wrong way, every access that does not
end in a panic is one to a block store. -/
theorem sdcard_block_store (base : Mem 32) (image : Nat → Byte) (es : List Access) (s : Session)
    (a : Access) (v : Word) (t : Card)
    (hrun : play step es ⟨initSdcard base image, none⟩ = some s)
    (hes : Along step Regular es ⟨initSdcard base image, none⟩) (hok : Regular a s)
    (ha : access a s.card = .ok v t) : Faithful s a v t := by
  have hinv : Inv s := by
    refine play_invariant ?_ hrun hes (inv_initSdcard base image)
    intro e s t hs he hstep
    unfold step at hstep
    cases hacc : access e s.card with
    | ok v u =>
      rw [hacc] at hstep
      cases hstep
      exact (step_faithful hs he hacc).1
    | error e u =>
      rw [hacc] at hstep
      cases hstep
  exact (step_faithful hinv hok ha).2

/-- An image whose bytes count up, under registers that are all zero. -/
def countingImage : Nat → Byte := fun x => BitVec.ofNat 8 x

def blank : Session := ⟨initSdcard (fun _ => 0) countingImage, none⟩

/-- Block 1 is written and sought to be read, with polls of registers in between. -/
def writeThenReadRun : List Access :=
  [.write 4 4 1, .write 0 4 0x8099, .read 0 2, .write sddataOffset 4 0xdeadbeef, .read 0x10 4,
    .write 0 4 0x800c, .read 0 4, .write 4 4 1, .write 0 4 0x8052, .read 0 4]

theorem writeThenReadRun_faithful : ∃ s v t, play step writeThenReadRun blank = some s ∧
    access (.read sddataOffset 4) s.card = .ok v t ∧ v = 0xdeadbeef ∧
      Faithful s (.read sddataOffset 4) v t :=
  ⟨_, _, _, rfl, rfl, by decide +kernel,
    sdcard_block_store (fun _ => 0) countingImage writeThenReadRun _ (.read sddataOffset 4) _ _ rfl
      (by decide +kernel) (by decide +kernel) rfl⟩

/-- An EXT_CSD transfer of no word, then a command to read block 0. -/
def cutShortRun : List Access := [.write 0 4 0x8048, .write 0 4 0x8052]

/-- `SDCMD` is polled after the first word of block 0. -/
def polledRun : List Access := [.write 0 4 0x8052, .read sddataOffset 4, .read 0 4]

/-- `SDDATA` gives a zero of EXT_CSD for word 0 after the first run, and word 0 again for word 1
after the second. -/
theorem sdcard_reads_astray :
    (∃ s v t, play step cutShortRun blank = some s ∧
      access (.read sddataOffset 4) s.card = .ok v t ∧ v = 0 ∧
        ¬Faithful s (.read sddataOffset 4) v t) ∧
    ∃ s v t, play step polledRun blank = some s ∧
      access (.read sddataOffset 4) s.card = .ok v t ∧ v = 0x03020100 ∧
        ¬Faithful s (.read sddataOffset 4) v t := by
  refine ⟨⟨_, _, _, rfl, rfl, by decide +kernel, fun h => ?_⟩,
    ⟨_, _, _, rfl, rfl, by decide +kernel, fun h => ?_⟩⟩
  · exact absurd ((h.read ⟨false, 0, 0⟩ _ rfl rfl rfl rfl rfl).2 rfl) (by decide +kernel)
  · exact absurd ((h.read ⟨false, 0, 1⟩ _ rfl rfl rfl rfl rfl).2 rfl) (by decide +kernel)

end Riscv32Cpu.Sdcard
