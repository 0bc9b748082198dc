/-
Listing and lookup through the callers.

`list_dir` reports every entry of a directory, `lookup` finds the first one of a name along a
path. They agree as long as every new name is one part of a path and is not in the directory
yet. The callers do not see to that: `touch a` typed twice makes two entries `a`, and only
one of them has a path.
-/
import HepOS.Callers.Events
import HepOS.HepFS.Lookup
import HepOS.HepFS.Tree

set_option autoImplicit false

namespace HepOS.Callers

open Hoare HepFS Trace

/-! ## Runs with good names -/

/-- The condition on a call: its parent is a live directory, what it writes to is a live file,
and a new name is one part of a path and is not taken. -/
def NamesWell (D : Disk) (op : Op) : Prop := op.Proper D ∧ op.NamesFit (view D)

theorem FromFormat.goodNames {σ : Session} (h : FromFormat σ)
    (hcalls : ∀ t op, (t, .call op) ∈ σ.requests → NamesWell t.blk op) :
    σ.fs.geom.covers ∧ HepFS.Inv σ.fs.blk ∧ (view σ.fs.blk).GoodNames := by
  refine h.keeps (P := fun D => (view D).GoodNames) hcalls ?_ ?_ (fun _ _ hm => hm.1) _ (.inl rfl)
  · intro D _ hview
    rw [hview]
    exact View.goodNames_root
  · intro t op t' hct It hcall hm hgood
    exact (hcall.effect hct It).effect.goodNames hgood hm.2

/-- **Listing and lookup agree** after every run of the callers all of whose calls name well:
a directory at a path can be listed, no name stands twice in it, and every entry of the list
is what `lookup` finds at the path followed by its name. -/
theorem listed_entries_looked_up {σ : Session} (h : FromFormat σ)
    (hcalls : ∀ t op, (t, .call op) ∈ σ.requests → NamesWell t.blk op) (path : String)
    (d : UInt32) (hpath : (view σ.fs.blk).Leads 0 (path_parts path) d.toNat)
    (hd : kindAt σ.fs.blk d.toNat = F_DIR) : ∃ entries t, list_dir d σ.fs = .ok entries t
      ∧ (∀ q q' i i' name, (view σ.fs.blk).entry d.toNat q = some (i, name) →
          (view σ.fs.blk).entry d.toNat q' = some (i', name) → q = q') ∧ ∀ ino name,
            (ino, name) ∈ entries →
          ∃ t', HepFS.lookup (path ++ "/" ++ name) σ.fs = .ok (some ino) t' := by
  obtain ⟨hc, I, hgood⟩ := h.goodNames hcalls
  obtain ⟨t, hlist, -⟩ := list_dir_spec σ.fs hc I.acc d hd
  refine ⟨_, t, hlist, hgood.unique d.toNat, ?_⟩
  intro ino name hmem
  exact lookup_of_listed hc I hgood hpath hlist hd hmem

/-! ## Two files in the root directory -/

theorem touch_runs {σ σ' : Session} {ino : UInt32} (t : Terminal) {name : String}
    (hname : name ≠ "") (h : Callers.create_file t.cwd_ino name σ = .ok ino σ') :
    Event.Runs σ (.shell t .touch name "") σ' := by
  have htouch : t.touch name σ = .ok (.text "created\n") σ' := by
    unfold Terminal.touch
    rw [if_neg hname, bind_of_ok h]
    rfl
  have hexec : t.execute .touch name "" σ = .ok (t, .text "created\n") σ' := by
    show (t.touch name >>= fun reply => pure (t, reply)) σ = _
    rw [bind_of_ok htouch]
    rfl
  show (t.execute .touch name "" >>= fun _ => pure ()) σ = _
  rw [bind_of_ok hexec]
  rfl

/-- Two files made in a fresh terminal right after `format`. -/
theorem exists_touched (a b : String) (ha : a ≠ "") (hb : b ≠ "")
    (hla : (nameBytes a).length ≤ 27) (hlb : (nameBytes b).length ≤ 27) :
    ∃ s s1 s2 q entries t, format unformatted = .ok () s
      ∧ Steps Event.Runs ⟨s, []⟩ [.shell Terminal.new .touch a "", .shell Terminal.new .touch b ""]
        ⟨s2, [(s, .call (.create_file 0 a)), (s1, .call (.create_file 0 b))]⟩
      ∧ view s.blk = View.root ∧ view s1.blk = View.root.create 1 F_FILE 0 q a
      ∧ kindAt s2.blk 0 = F_DIR
      ∧ list_dir 0 s2 = .ok entries t ∧ (1, a) ∈ entries ∧ (2, b) ∈ entries := by
  obtain ⟨s, s1, q, hformat, hrun1, -, hreach1, hview1, hcount1⟩ := exists_created .file a hla
  have hkind := kindAt_of_root_create hview1
  obtain ⟨s2, q', hrun2, hreach2, hempty, hview2, -⟩ := hreach1.create .file 0 b 2 (hkind 0) hlb
    (by decide) (used_of_root_create hview1 (by decide)) (hkind 2) (by omega)
  obtain ⟨s', hformat', -, -, hview, -⟩ := format_spec unformatted unformatted_covers
  obtain ⟨-, rfl⟩ := EStateM.Result.ok.inj (hformat.symm.trans hformat')
  have hd : kindAt s2.blk (0 : UInt32).toNat = F_DIR := by
    rw [← view_flags, hview2, View.flags_create, hview1, View.flags_root_create]
    rfl
  obtain ⟨t, hlist, -⟩ := list_dir_spec s2 hreach2.inv.1 hreach2.inv.2.acc 0 hd
  refine ⟨s, s1, s2, q, _, t, hformat, ?_, hview, hview1, hd, hlist, (mem_listing hd).mpr ⟨q, ?_⟩,
    (mem_listing hd).mpr ⟨q', ?_⟩⟩
  · exact .next (touch_runs Terminal.new ha (request_of_ok hrun1))
      (.one (touch_runs Terminal.new hb (request_of_ok hrun2)))
  · -- the second file went to another place
    have hne : q ≠ q' := by
      rintro rfl
      rw [hview1, View.entry_create] at hempty
      simp at hempty
    rw [hview2, View.entry_create, if_neg (fun h => hne h.2), hview1, View.entry_create]
    exact if_pos ⟨rfl, rfl⟩
  · rw [hview2, View.entry_create]
    exact if_pos ⟨rfl, rfl⟩

/-- With two different names the second file is found at its path. -/
theorem listed_entries_looked_up_touched :
    ∃ σ, FromFormat σ ∧ (∀ t op, (t, .call op) ∈ σ.requests → NamesWell t.blk op)
      ∧ ∃ entries t, list_dir 0 σ.fs = .ok entries t ∧ (2, "b") ∈ entries
      ∧ ∃ t', HepFS.lookup ("/" ++ "/" ++ "b") σ.fs = .ok (some 2) t' := by
  obtain ⟨s, s1, s2, q, entries, t, hformat, hrun, hview, hview1, hd, hlist, -, hmem⟩ :=
    exists_touched "a" "b" (by decide) (by decide) (by decide) (by decide)
  have hfrom : FromFormat
      ⟨s2, [(s, .call (.create_file 0 "a")), (s1, .call (.create_file 0 "b"))]⟩ :=
    ⟨unformatted, s, _, unformatted_covers, hformat, hrun⟩
  have hcalls : ∀ t op,
      (t, Request.call op) ∈ [(s, Request.call (.create_file 0 "a")),
        (s1, Request.call (.create_file 0 "b"))] → NamesWell t.blk op := by
    intro t op hmem
    rcases List.mem_cons.mp hmem with h | h
    · obtain ⟨rfl, hop⟩ := Prod.mk.inj h
      obtain rfl := Request.call.inj hop
      refine ⟨?_, by decide, ?_⟩
      · show kindAt t.blk 0 = F_DIR
        rw [← view_flags, hview]
        rfl
      · rw [hview]
        intro t i
        exact fun h => absurd h (by simp [View.root])
    · obtain ⟨rfl, hop⟩ := Prod.mk.inj (List.mem_singleton.mp h)
      obtain rfl := Request.call.inj hop
      refine ⟨kindAt_of_root_create hview1 0, by decide, ?_⟩
      rw [hview1]
      intro p i hentry
      have hname := (View.entry_root_create.mp hentry).2.2.2
      exact absurd hname (by decide)
  obtain ⟨entries', t', hlist', -, hlook⟩ :=
    listed_entries_looked_up hfrom hcalls "/" 0 (.here 0) hd
  obtain ⟨rfl, -⟩ := EStateM.Result.ok.inj (hlist.symm.trans hlist')
  exact ⟨_, hfrom, hcalls, _, t, hlist, hmem, hlook 2 "b" hmem⟩

/-- **`touch a` twice.** Both files are listed as `a`; `lookup` of the one path they have
cannot return both. -/
theorem touch_twice_not_looked_up : ∃ s σ, format unformatted = .ok () s ∧ Steps Event.Runs ⟨s, []⟩
        [.shell Terminal.new .touch "a" "", .shell Terminal.new .touch "a" ""] σ
      ∧ (view σ.fs.blk).Leads 0 (path_parts "/") 0
      ∧ ∃ entries t, list_dir 0 σ.fs = .ok entries t ∧ (1, "a") ∈ entries ∧ (2, "a") ∈ entries
      ∧ ¬ ∀ ino name, (ino, name) ∈ entries →
          ∃ t', HepFS.lookup ("/" ++ "/" ++ name) σ.fs = .ok (some ino) t' := by
  obtain ⟨s, s1, s2, q, entries, t, hformat, hrun, -, -, -, hlist, hmem1, hmem2⟩ :=
    exists_touched "a" "a" (by decide) (by decide) (by decide) (by decide)
  refine ⟨s, _, hformat, hrun, .here 0, entries, t, hlist, hmem1, hmem2, ?_⟩
  intro hall
  obtain ⟨t1, h1⟩ := hall 1 "a" hmem1
  obtain ⟨t2, h2⟩ := hall 2 "a" hmem2
  obtain ⟨hsome, -⟩ := EStateM.Result.ok.inj (h1.symm.trans h2)
  exact absurd (Option.some.inj hsome) (by decide)

end HepOS.Callers
