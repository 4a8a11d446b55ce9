import Yeast.Text.Basic

set_option autoImplicit false

/-! # The script of a page

What a reader of the page can do: open and close nodes of the outline, and highlight the
elements of both panes that carry one correlation id, opening the nodes around them.
-/

namespace Yeast

def scriptRows : List Text :=
  [ "function yeastToggle(event) \x7b".toList,
    "  var node = event.target.parentNode;".toList,
    "  node.classList.toggle('open');".toList,
    "  node.classList.toggle('closed');".toList,
    "  event.stopPropagation();".toList,
    "\x7d".toList,
    "function yeastHighlight(cid) \x7b".toList,
    "  var marked = document.querySelectorAll('.highlight');".toList,
    "  for (var i = 0; i < marked.length; i++) marked[i].classList.remove('highlight');".toList,
    "  var peers = document.querySelectorAll('[data-cid=\"' + cid + '\"]');".toList,
    "  for (var j = 0; j < peers.length; j++) \x7b".toList,
    "    peers[j].classList.add('highlight');".toList,
    "    var up = peers[j].parentNode;".toList,
    "    while (up && up.classList) \x7b".toList,
    "      if (up.classList.contains('closed')) \x7b".toList,
    "        up.classList.remove('closed');".toList,
    "        up.classList.add('open');".toList,
    "      \x7d".toList,
    "      up = up.parentNode;".toList,
    "    \x7d".toList,
    "  \x7d".toList,
    "  var target = document.getElementById('text-' + cid);".toList,
    "  if (target) target.scrollIntoView(\x7bblock: 'nearest'\x7d);".toList,
    "  target = document.getElementById('tree-' + cid);".toList,
    "  if (target) target.scrollIntoView(\x7bblock: 'nearest'\x7d);".toList,
    "\x7d".toList,
    "window.addEventListener('load', function () \x7b".toList,
    "  var toggles = document.querySelectorAll('.toggle');".toList,
    "  for (var i = 0; i < toggles.length; i++) toggles[i].addEventListener('click', yeastToggle);".toList,
    "  var items = document.querySelectorAll('.leaf, .token');".toList,
    "  for (var j = 0; j < items.length; j++) \x7b".toList,
    "    items[j].addEventListener('click', function (event) \x7b".toList,
    "      yeastHighlight(this.getAttribute('data-cid'));".toList,
    "      event.stopPropagation();".toList,
    "    \x7d);".toList,
    "  \x7d".toList,
    "\x7d);".toList ]

def script : Text := Text.ofRows scriptRows

end Yeast
