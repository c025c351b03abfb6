import Mathlib
import ThreadedForth.Terminal.Session
import ThreadedForth.Proofs.Dictionary.Image
import ThreadedForth.Proofs.Program

/-!
# Saving and loading

What one session saves another one loads. The file that was written is read back with its bytes
(`Files.read_put_of_target_eq_ok`), so what is loaded is the image of the dictionary that was saved, and
the session goes on with all that this dictionary defines (`loadImage_eq_ok_of_saveImage`). Its
stacks, the place in the code and the line that is interpreted stay its own.
-/

set_option autoImplicit false

namespace ThreadedForth

namespace Terminal

/-! ## Files that were written -/

namespace Files

variable {fs fs' : Files} {place : Place} {bytes : List UInt8} {text : String}

/-- A step after another one is taken where the first one led to. -/
theorem exists_of_bind_eq_ok {α β : Type} {x : Except FileError α} {f : α → Except FileError β}
    {b : β} (h : (x >>= f) = .ok b) : ∃ a, x = .ok a ∧ f a = .ok b := by
  cases x with
  | error e => cases h
  | ok a => exact ⟨a, rfl, h⟩

/-- A folder stays one when something is put into a file. -/
theorem isFolder_put {other : Place} (h : fs.isFolder other = true) :
    (fs.put place bytes).isFolder other = true := by
  unfold put
  split
  · exact h
  · simp only [isFolder, Bool.or_eq_true, List.any_eq_true, List.mem_append, List.mem_map,
      List.mem_cons, List.mem_filter] at h ⊢
    rcases h with h | ⟨file, hfile | ⟨⟨key, old⟩, hkey, rfl⟩, hprefix⟩
    · exact .inl h
    · exact .inr ⟨file, .inl hfile, hprefix⟩
    · by_cases hk : key = place
      · exact .inr ⟨key, .inr ⟨(place, bytes), .inl rfl, hk.symm⟩, hprefix⟩
      · exact .inr ⟨key, .inr ⟨(key, old), .inr ⟨hkey, by simpa using hk⟩, rfl⟩, hprefix⟩

/-- The file that is written does not become a folder. -/
theorem isFolder_put_self (h : fs.isFolder place = false) :
    (fs.put place bytes).isFolder place = false := by
  unfold put
  split
  · exact h
  · simp only [isFolder, Bool.or_eq_false_iff, List.any_eq_false, List.mem_append, List.mem_map,
      List.mem_cons, List.mem_filter] at h ⊢
    obtain ⟨⟨⟨hdots, hroot⟩, hfolders⟩, hfiles⟩ := h
    refine ⟨⟨⟨hdots, hroot⟩, hfolders⟩, ?_⟩
    rintro file (hfile | ⟨⟨key, old⟩, hkey | ⟨hkey, -⟩, rfl⟩)
    · exact hfiles file (.inl hfile)
    · -- a place is longer than the folder it is in
      cases hkey
      intro hprefix
      have hle : place.length ≤ place.dropLast.length :=
        (List.isPrefixOf_iff_prefix.1 hprefix).length_le
      have hnil : place = [] := by
        rw [List.length_dropLast] at hle
        exact List.length_eq_zero_iff.1 (by omega)
      simp [hnil] at hdots
    · exact hfiles key (.inr ⟨(key, old), hkey, rfl⟩)

theorem enter_put {folder : Place} {name : String} {found : Place}
    (h : fs.enter folder name = .ok found) : (fs.put place bytes).enter folder name = .ok found := by
  obtain ⟨next, hstep, h⟩ := exists_of_bind_eq_ok h
  by_cases hfolder : fs.isFolder next
  · rw [if_pos hfolder] at h
    rw [enter, hstep]
    change (if (fs.put place bytes).isFolder next then _ else _) = _
    rw [if_pos (isFolder_put hfolder)]
    exact h
  · rw [if_neg hfolder] at h
    split at h <;> cases h

theorem walk_put {folder : Place} {names : List String} {found : Place}
    (h : fs.walk folder names = .ok found) : (fs.put place bytes).walk folder names = .ok found := by
  induction names generalizing folder with
  | nil => exact h
  | cons name names ih =>
    obtain ⟨next, henter, hwalk⟩ := exists_of_bind_eq_ok h
    rw [walk, enter_put henter]
    exact ih hwalk

/-- What was written to a file is read from it. -/
theorem read_put_of_target_eq_ok (htarget : fs.target text = .ok place) (hsink : place ∉ fs.sinks) :
    (fs.put place bytes).read text = .ok bytes := by
  obtain ⟨path, hpath, h⟩ := exists_of_bind_eq_ok htarget
  obtain ⟨folder, hwalk, h⟩ := exists_of_bind_eq_ok h
  by_cases hlast : path.isFolder
  · rw [if_pos hlast] at h
    cases h
  · rw [if_neg hlast] at h
    obtain ⟨last, hstep, h⟩ := exists_of_bind_eq_ok h
    have hfolder : fs.isFolder last = false := by
      by_contra hf
      rw [if_pos (by simpa using hf)] at h
      cases h
    rw [if_neg (by simp [hfolder])] at h
    cases h
    -- the way to the folder is the same, and in it there is now the file
    have hfind : (fs.put place bytes).find text = .ok place := by
      rw [find, hpath]
      change ((fs.put place bytes).walk path.start path.through >>= _) = _
      rw [walk_put hwalk]
      change (if path.isFolder then _ else folder.step path.last >>= _) = _
      rw [if_neg hlast, hstep]
      change (if (fs.put place bytes).isFile place || _ then _ else _) = _
      rw [if_pos (by simp [isFile, put, hsink])]
      rfl
    rw [read, hfind]
    change (if (fs.put place bytes).isFolder place then _ else _) = _
    rw [isFolder_put_self hfolder, bytesAt_put_self fs bytes hsink]
    rfl

end Files

/-! ## The two calls -/

variable {s s' t : Machine Terminal} {place : Place}

/-- The image goes into its file, and nothing else changes. -/
theorem saveImage_of_target (h : s.host.files.target s.host.imagePath = .ok place) :
    saveImage s = .ok () { s with
      host := { s.host with files := s.host.files.put place s.dictionary.image } } := by
  have hwrite : s.host.files.write s.host.imagePath s.dictionary.image =
      .ok (s.host.files.put place s.dictionary.image) := by
    rw [Files.write, h]
    rfl
  have himage : Machine.getDictionary (·.image) s = .ok s.dictionary.image s := rfl
  have hmodify : ∀ f : Terminal → Terminal,
      Machine.modifyHost f s = .ok () { s with host := f s.host } := fun f => rfl
  rw [saveImage, bind_eq_of_ok himage, hmodify, hwrite]

/-- What is in the file goes into the dictionary, and nothing else changes. -/
theorem loadImage_of_read {bytes : List UInt8}
    (h : t.host.files.read t.host.imagePath = .ok bytes) :
    loadImage t = .ok () { t with dictionary := t.dictionary.restore bytes } := by
  have hget : (get : MachineM Terminal _) t = .ok t t := rfl
  rw [loadImage, bind_eq_of_ok hget, h]
  rfl

/-- The dictionary `d` holds all that `s` defines, and the line that is interpreted in `t`. -/
structure TakesOver (s t d : Dictionary) : Prop where
  base_eq : d.base = s.base
  here_eq : d.here = s.here
  latest_eq : d.latest = s.latest
  /-- What is seen is the same, and so are the names. -/
  entries : ∃ es, s.entries? = some es ∧ d.entries? = some es ∧
    ∀ e ∈ es, d.text e.name = s.text e.name
  agreeOn_entries : s.AgreeOn d Layout.firstEntry.toNat s.here.toNat
  /-- A name stands for what it stands for in `s`, whatever else is in the input buffer there. -/
  find_eq : ∀ s', s.InputOnly s' → ∀ u v, d.text v = s'.text u → d.find v = s'.find u
  agreeOn_line : t.AgreeOn d SystemCell.compiling.addr.toNat Layout.firstEntry.toNat

theorem takesOver_restore_image {s t : Dictionary} (hs : s.Intact)
    (hcap : s.here.toNat ≤ t.capacity) (hcs : s.compiling = false) (hct : t.compiling = false) :
    TakesOver s t (t.restore s.image) where
  base_eq := Dictionary.reserved_restore_image hs hcap (by decide)
  here_eq := Dictionary.here_restore_image hs hcap
  latest_eq := Dictionary.latest_restore_image hs hcap
  entries := Dictionary.entries?_restore_image hs hcap hcs hct
  agreeOn_entries := Dictionary.agreeOn_restore_entries hcap
  find_eq _ hinput _ _ htext := Dictionary.find_restore_image hs hcap hcs hct hinput htext
  agreeOn_line := Dictionary.agreeOn_restore_kept s t

/-- A session that loads what another one has saved goes on with all that was defined there. -/
theorem loadImage_eq_ok_of_saveImage (hs : s.dictionary.Intact)
    (hcap : s.dictionary.here.toNat ≤ t.dictionary.capacity)
    (hcs : s.dictionary.compiling = false) (hct : t.dictionary.compiling = false)
    (htarget : s.host.files.target s.host.imagePath = .ok place)
    (hsink : place ∉ s.host.files.sinks) (hsave : saveImage s = .ok () s')
    (hread : t.host.files.read t.host.imagePath = .ok (s'.host.files.bytesAt place)) :
    ∃ d, loadImage t = .ok () { t with dictionary := d } ∧
      TakesOver s.dictionary t.dictionary d := by
  have hbytes : s'.host.files.bytesAt place = s.dictionary.image := by
    rw [saveImage_of_target htarget] at hsave
    cases hsave
    exact Files.bytesAt_put_self _ _ hsink
  rw [hbytes] at hread
  exact ⟨_, loadImage_of_read hread, takesOver_restore_image hs hcap hcs hct⟩

/-! ## Two words handed on -/

/-- An empty dictionary of full size in which a line was interpreted. -/
def dictionaryAfter (line : String) : Dictionary :=
  (lastState (Machine.interpretLine {} 20 (Text.encode line)
    (.ofDictionary (Dictionary.setUp ⟨.sparse (.zeros 65536)⟩) () ⟨4, 4, 65536⟩))).dictionary

/-- A session with two words. -/
def savedMachine : Machine Terminal :=
  .ofDictionary (dictionaryAfter ": two 2 ; : four two two + ;") { imagePath := "i" } {}

/-- Another session, with a word of its own and a line in which `four` stands. It sees the file in
which the first one has saved its image. -/
def loadingMachine : Machine Terminal :=
  .ofDictionary
    (lastState (Dictionary.loadInput (Text.encode "four .") (dictionaryAfter ": seven 7 ;")))
    { imagePath := "i", files := (lastState (saveImage savedMachine)).host.files } {}

/-- The two words in the memory of `savedMachine`. -/
def savedDefinitions : List Definition :=
  [⟨106, Text.encode "four", false, 112⟩, ⟨96, Text.encode "two", false, 102⟩]

theorem chained_savedMachine : savedMachine.dictionary.Chained savedDefinitions ∧
    savedMachine.dictionary.latest = newestAddr savedDefinitions ∧
    savedMachine.dictionary.here = 120 ∧ savedMachine.dictionary.compiling = false := by
  decide +kernel

theorem capacity_loadingMachine : loadingMachine.dictionary.capacity = 65536 ∧
    loadingMachine.dictionary.compiling = false := by
  decide +kernel

theorem target_savedMachine :
    savedMachine.host.files.target savedMachine.host.imagePath = .ok ["i"] := by
  change Files.target {} "i" = _
  cbv

/-- What `savedMachine` has saved replaces the word of `loadingMachine`, and not its line. -/
theorem loadImage_eq_ok_loadingMachine :
    ∃ d, loadImage loadingMachine = .ok () { loadingMachine with dictionary := d } ∧
      TakesOver savedMachine.dictionary loadingMachine.dictionary d := by
  obtain ⟨hchained, hlatest, hhere, hcs⟩ := chained_savedMachine
  obtain ⟨hcapacity, hct⟩ := capacity_loadingMachine
  have hsink : ["i"] ∉ savedMachine.host.files.sinks := by decide
  have hsave := saveImage_of_target target_savedMachine
  have hsaved : saveImage savedMachine = .ok () (lastState (saveImage savedMachine)) := by
    rw [hsave]
    rfl
  have hread : loadingMachine.host.files.read loadingMachine.host.imagePath =
      .ok ((lastState (saveImage savedMachine)).host.files.bytesAt ["i"]) := by
    change (lastState (saveImage savedMachine)).host.files.read savedMachine.host.imagePath = _
    rw [hsave, lastState_ok, Files.bytesAt_put_self _ _ hsink]
    exact Files.read_put_of_target_eq_ok target_savedMachine hsink
  refine loadImage_eq_ok_of_saveImage
    (Dictionary.intact_of_chained hchained hlatest (by decide)) ?_ hcs hct target_savedMachine
    hsink hsaved hread
  rw [hhere, hcapacity]
  decide

end Terminal

end ThreadedForth
