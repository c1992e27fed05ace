import MarieRs.Lib.Looping

/-! Loops that can be broken off: now and then they look whether they were asked to stop. -/

namespace MarieRs.Lib.Looping

variable {S T E F B L : Type*}

section Ending
variable {turn : S → E ⊕ (Option L × S)}

end Ending

variable {turn : S → (E ⊕ B) ⊕ (Option L × S)} {turn' : T → F ⊕ (Option L × T)}

variable {Related : S → T → Prop} {Left : B → T → Prop} {way : E → F}

end MarieRs.Lib.Looping
