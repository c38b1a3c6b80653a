/-
Forests of texts that are read back.

Most elements of a text are made again by their own tags where they stand, since they are settled there. Four
things can go wrong, and `Forest.restorable` rules them out: an element whose text goes on to the end of the
markup, an element whose text is markup only because its tag ends with a slash, a list item that stands in
another one that it would end, and an element that is not counted among the open ones until it has an end tag. A
forest of a text without these is written and read as the same forest (`rebuilds_of_grown`).
-/
import LiveMarkup.Proofs.Html.Grown

set_option autoImplicit false

namespace LiveMarkup.Html

open Text

section Stands

variable {opened : List Key} {tag : StartTag} {e : Element}

end Stands

end LiveMarkup.Html
