import Syllogism.Catalogue

/-! The catalogues that come with the prover. -/
namespace Syllogism

namespace Rule

def reflexivity : Rule where
  name := "axiom"
  description := "Everything is itself."
  conclusion := ⟨.universal, "x", "x"⟩

def barbara : Rule where
  name := "barbara"
  description := "All x are y and all y are z, so all x are z."
  premises := [⟨.universal, "x", "y"⟩, ⟨.universal, "y", "z"⟩]
  conclusion := ⟨.universal, "x", "z"⟩

def conversion : Rule where
  name := "conversion"
  description := "Some-statements can be read in either direction."
  premises := [⟨.particular, "x", "y"⟩]
  conclusion := ⟨.particular, "y", "x"⟩

def someSubject : Rule where
  name := "some_subject"
  description := "If some x are y, the x are not empty."
  premises := [⟨.particular, "x", "y"⟩]
  conclusion := ⟨.particular, "x", "x"⟩

def darii : Rule where
  name := "darii"
  description := "All y are z and some x are y, so some x are z."
  premises := [⟨.universal, "y", "z"⟩, ⟨.particular, "x", "y"⟩]
  conclusion := ⟨.particular, "x", "z"⟩

end Rule

namespace Catalogue

/-- Rules from which exactly the valid syllogisms of all and some follow. -/
def syllogistic : Catalogue where
  name := "syllogistic"
  description := "Sound and complete rules for all/some syllogisms."
  rules := [.reflexivity, .barbara, .conversion, .someSubject, .darii]

def barbaraOnly : Catalogue where
  name := "barbara"
  rules := [.barbara]

end Catalogue

end Syllogism
