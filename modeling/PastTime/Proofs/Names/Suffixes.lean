import PastTime.Proofs.Names.Freshness

/-!
# The last part of a random name

A search for a random name ends, whatever words its letters are drawn from. Every name that it draws
ends in letters from `a` to `z`, one letter more after each `maxRedraws` collisions in a row. It
gets through at most `maxRedraws` collisions for each taken name, so it adds at most as many letters
as there are taken names.
-/

namespace PastTime

/-! ## Letters -/

namespace Letter

theorem ofIndex_mem_alphabet :
    ∀ index < alphabetSize, 'a' ≤ ofIndex index ∧ ofIndex index ≤ 'z' := by
  decide

/-- The letter `z` never carries over: the largest word drops too little for a second one. -/
theorem draw_mem_alphabet (words : Words) (position : Nat) :
    'a' ≤ (draw words position).1 ∧ (draw words position).1 ≤ 'z' := by
  have hword : (words position).toNat < 2 ^ 32 := (words position).toNat_lt
  have hindex : (words position).toNat * alphabetSize / wordSize < alphabetSize := by
    simp only [alphabetSize, wordSize, UInt32.size]
    omega
  unfold draw
  simp only
  split
  next hdropped =>
    apply ofIndex_mem_alphabet
    have hcarry : (words position).toNat * alphabetSize / wordSize + 1 < alphabetSize := by
      simp only [alphabetSize, wordSize, UInt32.size] at hdropped ⊢
      omega
    split <;> omega
  next => exact ofIndex_mem_alphabet _ hindex

theorem drawMany_mem_alphabet (words : Words) (count position : Nat) :
    ∀ c ∈ (drawMany words count position).1, 'a' ≤ c ∧ c ≤ 'z' := by
  induction count generalizing position with
  | zero => simp [drawMany]
  | succ count ih =>
      simp only [drawMany, List.forall_mem_cons]
      exact ⟨draw_mem_alphabet words position, ih _⟩

end Letter

/-- The name that a note reports as taken, if it does. -/
def NameNote.collided? : NameNote → Option String
  | collided name => some name
  | issued _ | extended _ => none

namespace RandomNames

/-- The name is joined from the first part of all names, the tag, and so many letters. -/
def Spells (names : RandomNames) (tag : String) (length : Nat) (name : String) : Prop :=
  ∃ letters : List Char, name = joinName names.naming.stem tag (String.ofList letters) ∧
    letters.length = length ∧ ∀ c ∈ letters, 'a' ≤ c ∧ c ≤ 'z'

theorem spells_draw (tag : String) (names : RandomNames) :
    names.Spells tag names.length (names.draw tag).1 :=
  ⟨_, rfl, Letter.length_drawMany .., Letter.drawMany_mem_alphabet _ _ _⟩

/-! ## Collisions -/

/-- The names that a search drew in vain, in their order. -/
def Search.collisions (search : Search) : List String :=
  search.notes.filterMap NameNote.collided?

@[simp] theorem Search.collisions_issued (name : String) (names : RandomNames) :
    Search.collisions ⟨[.issued name], name, names⟩ = [] := rfl

@[simp] theorem Search.collisions_collided (search : Search) (name : String) :
    (search.after [.collided name]).collisions = name :: search.collisions := rfl

@[simp] theorem Search.collisions_extended (search : Search) (name : String) (length : Nat) :
    (search.after [.collided name, .extended length]).collisions = name :: search.collisions := rfl

/-- The last collision of a row completes it. -/
theorem row_div {redraws : Nat} (hlast : redraws + 1 = maxRedraws) (count : Nat) :
    (redraws + (count + 1)) / maxRedraws = 1 + count / maxRedraws := by
  have hrow : redraws + (count + 1) = maxRedraws + count := by omega
  rw [hrow, Nat.add_div_left _ (by decide), Nat.add_comm]

namespace Finds

variable {tag : String} {redraws : Nat} {names : RandomNames} {found other : Search}

/-- There is one way to look for a name. -/
theorem unique (h : Finds tag redraws names found) (hother : Finds tag redraws names other) :
    other = found := by
  induction h generalizing other with
  | issued hfree =>
      cases hother with
      | issued => rfl
      | collided htaken | extended htaken => exact absurd htaken hfree
  | collided htaken hnext _ ih =>
      cases hother with
      | issued hfree => exact absurd htaken hfree
      | collided _ _ hrest => rw [ih hrest]
      | extended _ hlast => exact absurd hlast hnext
  | extended htaken hlast _ ih =>
      cases hother with
      | issued hfree => exact absurd htaken hfree
      | collided _ hnext => exact absurd hlast hnext
      | extended _ _ hrest => rw [ih hrest]

theorem naming_eq (h : Finds tag redraws names found) : found.names.naming = names.naming := by
  induction h with
  | issued => rfl
  | collided _ _ _ ih => exact ih
  | extended _ _ _ ih => exact ih

/-- The name that is found has as many letters as names have from then on. -/
theorem spells (h : Finds tag redraws names found) :
    names.Spells tag found.names.length found.name := by
  induction h with
  | issued => exact spells_draw ..
  | collided _ _ _ ih => exact ih
  | extended _ _ _ ih => exact ih

/-- Names get one letter longer after each `maxRedraws` collisions. -/
theorem length_eq (h : Finds tag redraws names found) (hredraws : redraws < maxRedraws) :
    found.names.length = names.length + (redraws + found.collisions.length) / maxRedraws := by
  induction h with
  | issued =>
      rw [Search.collisions_issued, List.length_nil, Nat.add_zero, Nat.div_eq_of_lt hredraws]
      rfl
  | collided _ hnext _ ih =>
      rw [Search.collisions_collided, List.length_cons, Nat.add_comm _ 1, ← Nat.add_assoc]
      exact ih (Nat.lt_of_le_of_ne hredraws hnext)
  | extended _ hlast _ ih =>
      have hrest := ih (by decide)
      rw [Nat.zero_add] at hrest
      rw [Search.collisions_extended, List.length_cons, row_div hlast, ← Nat.add_assoc]
      exact hrest

/-- Every collision is with a taken name, of the length that names had at that draw. -/
theorem collision (h : Finds tag redraws names found) (hredraws : redraws < maxRedraws) {k : Nat}
    {name : String} (hname : found.collisions[k]? = some name) :
    name ∈ names.taken ∧ names.Spells tag (names.length + (redraws + k) / maxRedraws) name := by
  induction h generalizing k with
  | issued => simp at hname
  | @collided redraws names found htaken hnext _ ih =>
      cases k with
      | zero =>
          cases hname
          rw [Nat.add_zero, Nat.div_eq_of_lt hredraws]
          exact ⟨htaken, spells_draw tag names⟩
      | succ k =>
          have hrest := ih (Nat.lt_of_le_of_ne hredraws hnext) hname
          rwa [Nat.add_right_comm] at hrest
  | @extended redraws names found htaken hlast _ ih =>
      cases k with
      | zero =>
          cases hname
          rw [Nat.add_zero, Nat.div_eq_of_lt hredraws]
          exact ⟨htaken, spells_draw tag names⟩
      | succ k =>
          have hrest := ih (by decide) hname
          rw [Nat.zero_add] at hrest
          rw [row_div hlast, ← Nat.add_assoc]
          exact hrest

/-- Every taken name costs at most `maxRedraws` collisions, and only if it is as long as the names
that are drawn, or longer. -/
theorem length_collisions_le (h : Finds tag redraws names found) (hredraws : redraws < maxRedraws) :
    found.collisions.length ≤ maxRedraws * names.blocked tag - redraws := by
  induction h with
  | issued => exact Nat.zero_le _
  | @collided redraws names found htaken hnext _ ih =>
      have hrest : found.collisions.length ≤ maxRedraws * names.blocked tag - (redraws + 1) :=
        ih (Nat.lt_of_le_of_ne hredraws hnext)
      have hlt := blocked_lengthen_lt htaken
      rw [Search.collisions_collided, List.length_cons]
      simp only [maxRedraws] at hredraws hnext hrest ⊢
      omega
  | @extended redraws names found htaken hlast _ ih =>
      have hrest : found.collisions.length ≤ maxRedraws * names.lengthen.blocked tag - 0 :=
        ih (by decide)
      have hlt := blocked_lengthen_lt htaken
      rw [Search.collisions_extended, List.length_cons]
      simp only [maxRedraws] at hlast hrest ⊢
      omega

end Finds

/-! ## Issuing a name -/

/-- A random name is issued after finitely many draws, whatever words are drawn: looking for it
without a bound finds exactly what `fresh` issues. Each collision is with a taken name, the names
that are drawn have one letter more after each `maxRedraws` collisions, and there are at most
`maxRedraws` collisions for each taken name. The name was not taken, it ends in as many letters as
names have afterwards, and it alone is taken in addition. -/
theorem fresh_ends (tag : String) (names : RandomNames) :
    ∃ found : Search,
      (∀ other, Finds tag 0 names other ↔ other = found) ∧
      names.fresh tag = (found.name, found.names) ∧
      found.collisions.length ≤ maxRedraws * names.taken.size ∧
      (∀ k name, found.collisions[k]? = some name →
        name ∈ names.taken ∧ names.Spells tag (names.length + k / maxRedraws) name) ∧
      found.names.length = names.length + found.collisions.length / maxRedraws ∧
      found.names.length ≤ names.length + names.taken.size ∧
      names.Spells tag found.names.length found.name ∧
      found.name ∉ names.taken ∧ found.names.taken = names.taken.insert found.name ∧
      found.names.naming = names.naming := by
  have hfinds := names.search_finds tag
  have hsound := hfinds.sound
  have hpositive : 0 < maxRedraws := by decide
  have hcollisions : (names.search tag).collisions.length ≤ maxRedraws * names.taken.size :=
    Nat.le_trans (hfinds.length_collisions_le hpositive)
      (Nat.mul_le_mul_left maxRedraws (names.blocked_le_size tag))
  have hlength := hfinds.length_eq hpositive
  rw [Nat.zero_add] at hlength
  refine ⟨names.search tag, fun other => ⟨hfinds.unique, fun heq => heq ▸ hfinds⟩, rfl, hcollisions,
    ?_, hlength, ?_, hfinds.spells, hsound.notMem, hsound.taken, hfinds.naming_eq⟩
  · intro k name hname
    have hcollision := hfinds.collision hpositive hname
    rwa [Nat.zero_add] at hcollision
  · have hgrowth := Nat.div_le_of_le_mul hcollisions
    omega

end RandomNames

end PastTime
